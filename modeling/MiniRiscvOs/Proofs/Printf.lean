import MiniRiscvOs.Kernel.Printf

/-!
# `MiniRiscvOs.Proofs.Printf`: the counting pass and the writing pass

A format is a list of literal bytes and of conversions `d`, `x`, `p`, `s`,
`c` with an optional `l`. Its rendering is a list of bytes, and each
conversion should take one argument.

* `fmtLoop_noChar`: without `%c` a pass emits the rendering and takes one
  argument for each conversion, with or without a destination. The digits
  of `%d` are written back to front, which makes no difference.
* `%c` takes its argument only where it can write it, so the counting pass
  never takes it. `passes_agree_iff` says when that does no harm.
* `lib_vprintf` asks for one byte more of `out_buf` than it needs, so it
  also refuses a rendering of `999` bytes.
-/

set_option autoImplicit false

namespace MiniRiscvOs.Proofs

open MiniRiscvOs.Lib
open MiniRiscvOs.Kernel

/-! ### Formats and their renderings -/

/-- A supported conversion. -/
inductive Conv where
  | d
  | x
  | p
  | s
  | c
deriving DecidableEq, Repr

/-- The letter of a conversion. -/
def Conv.letter : Conv → Byte
  | .d => asc 'd'
  | .x => asc 'x'
  | .p => asc 'p'
  | .s => asc 's'
  | .c => asc 'c'

/-- A byte of a format outside of its conversions. -/
structure Literal where
  byte : Byte
  ne_percent : byte ≠ asc '%'
  ne_nul : byte ≠ 0#8

/-- A piece of a format. -/
inductive Item where
  | lit (b : Literal)
  | conv (long : Bool) (k : Conv)

/-- The piece as it stands in the format string. -/
def Item.text : Item → List Byte
  | .lit b => [b.byte]
  | .conv false k => [asc '%', k.letter]
  | .conv true k => [asc '%', asc 'l', k.letter]

/-- The format string. -/
def formatText (items : List Item) : List Byte := items.flatMap Item.text

/-- The characters of the first item come first. -/
theorem formatText_cons (item : Item) (items : List Item) :
    formatText (item :: items) = item.text ++ formatText items :=
  List.flatMap_cons

/-- Eight hexadecimal digits, from digit `k - 1` down. -/
def renderHex (num : Word) : Nat → List Byte
  | 0 => []
  | k + 1 => hexDigit num k :: renderHex num k

/-- `k` decimal digits, last one first. -/
def decDigits : Nat → Word → List Byte
  | 0, _ => []
  | k + 1, num => decDigit num :: decDigits k (num.sdiv 10#32)

/-- `%d`: the sign and the digits. -/
def renderDec (num : Word) : List Byte :=
  if num.slt 0#32 then asc '-' :: (decDigits (digitCount 32 (-num)) (-num)).reverse
  else (decDigits (digitCount 32 num) num).reverse

/-- A conversion of the argument `w`. -/
def renderConv (m : Mem) (w : Word) : Conv → List Byte
  | .d => renderDec w
  | .x => renderHex w 8
  | .p => asc '0' :: asc 'x' :: renderHex w 8
  | .s => (cString m w).getD []
  | .c => [w.setWidth 8]

section Rendering

variable (vl : Nat → Word) (m : Mem)

/-- The rendering of a format whose first argument is number `j`. -/
def render : List Item → Nat → List Byte
  | [], _ => []
  | .lit b :: items, j => b.byte :: render items j
  | .conv _ k :: items, j => renderConv m (vl j) k ++ render items (j + 1)

/-- The argument of a `%s` is a string. -/
def Readable (k : Conv) (w : Word) : Prop := k = .s → cString m w ≠ none

/-- The arguments from number `j` on match the format. -/
def Matches : List Item → Nat → Prop
  | [], _ => True
  | .lit _ :: items, j => Matches items j
  | .conv _ k :: items, j => Readable m k (vl j) ∧ Matches items (j + 1)

/-- Each `%c` falls on the last index of all, `2 ^ 32 - 1`, which is below
no size, with the output at `pos` and the next argument at `j`. So no `%c`
is ever written. -/
def QuietChars : List Item → Nat → Word → Prop
  | [], _, _ => True
  | .lit _ :: items, j, pos => QuietChars items j (pos + 1#32)
  | .conv _ .c :: items, j, pos => pos = -1#32 ∧ QuietChars items j (pos + 1#32)
  | .conv _ k :: items, j, pos =>
      Readable m k (vl j) ∧
        QuietChars items (j + 1) (pos + BitVec.ofNat 32 (renderConv m (vl j) k).length)

/-- A conversion other than `%c` needs an argument to read, and the rest is
quiet. -/
theorem quietChars_conv {l : Bool} {k : Conv} (hk : k ≠ .c) {items : List Item} {j : Nat}
    {pos : Word} :
    QuietChars vl m (.conv l k :: items) j pos ↔
      Readable m k (vl j) ∧
        QuietChars vl m items (j + 1)
          (pos + BitVec.ofNat 32 (renderConv m (vl j) k).length) := by
  cases k with
  | c => exact absurd rfl hk
  | _ => rfl

end Rendering

/-- The conversions of a format other than `%c`. -/
def plainConvs : List Item → Nat
  | [] => 0
  | .lit _ :: items => plainConvs items
  | .conv _ .c :: items => plainConvs items
  | .conv _ _ :: items => plainConvs items + 1

/-- A conversion other than `%c` counts. -/
theorem plainConvs_conv {l : Bool} {k : Conv} (hk : k ≠ .c) (items : List Item) :
    plainConvs (.conv l k :: items) = plainConvs items + 1 := by
  cases k with
  | c => exact absurd rfl hk
  | _ => rfl

/-! ### One conversion -/

/-- The state between two pieces of a format. -/
def between (s : Sink 32 Byte) (j : Nat) : Fmt := ⟨false, false, s, j⟩

/-- The loop of `case 'x'` emits the hexadecimal digits. -/
theorem putHex_eq (n num : Word) (k : Nat) (s : Sink 32 Byte) :
    putHex n num k s = s.emit n (renderHex num k) := by
  induction k generalizing s with
  | zero => rfl
  | succ k ih =>
      rw [putHex, ih]
      rfl

/-- There are as many digits as asked for. -/
theorem length_decDigits (k : Nat) (num : Word) : (decDigits k num).length = k := by
  induction k generalizing num with
  | zero => rfl
  | succ k ih => rw [decDigits, List.length_cons, ih]

/-- The loop of `case 'd'` writes the digits back to front. -/
theorem putDec_eq (n : Word) (k : Nat) (num : Word) (s : Sink 32 Byte) :
    putDec n k num s = s.pokeBack n (decDigits k num) := by
  induction k generalizing num s with
  | zero => rfl
  | succ k ih =>
      rw [putDec, ih]
      show _ = (s.poke n (decDigits k (num.sdiv 10#32)).length (decDigit num)).pokeBack n _
      rw [length_decDigits]

/-- There is at most one digit more than the loop has fuel. -/
theorem digitCount_le (fuel : Nat) (num : Word) : digitCount fuel num ≤ fuel + 1 := by
  induction fuel generalizing num with
  | zero => exact Nat.le_refl 1
  | succ fuel ih =>
      rw [digitCount]
      split
      · exact Nat.succ_le_succ (ih _)
      · omega

/-- A bound for the decimal text, with its sign. -/
theorem length_renderDec_le (v : Word) : (renderDec v).length ≤ 34 := by
  have hdigits : ∀ w, (decDigits (digitCount 32 w) w).reverse.length ≤ 33 := by
    intro w
    rw [List.length_reverse, length_decDigits]
    exact digitCount_le 32 w
  rw [renderDec]
  split
  · exact Nat.succ_le_succ (hdigits _)
  · exact Nat.le_succ_of_le (hdigits _)

/-- The digits of `%d`, written from the last to the first, are emitted
from the first to the last. -/
theorem putDec_advance (n num : Word) (s : Sink 32 Byte) :
    (putDec n (digitCount 32 num) num s).advance (digitCount 32 num)
      = s.emit n (decDigits (digitCount 32 num) num).reverse := by
  have hle := digitCount_le 32 num
  have hlen := length_decDigits (digitCount 32 num) num
  have hback := Sink.pokeBack_eq_emit n (decDigits (digitCount 32 num) num) (by omega) s
  rwa [hlen, ← putDec_eq] at hback

section Pass

variable (vl : Nat → Word) (m : Mem) (n : Word)

/-- The loop over the second part goes on from the first. -/
theorem fmtLoop_append (as bs : List Byte) (st : Fmt) :
    fmtLoop vl m n (as ++ bs) st = (fmtLoop vl m n as st).bind (fmtLoop vl m n bs) :=
  List.foldlM_append

/-- A literal byte is put into the output. -/
theorem fmtLoop_lit (b : Literal) (s : Sink 32 Byte) (j : Nat) :
    fmtLoop vl m n (Item.lit b).text (between s j) = some (between (s.put n b.byte) j) := by
  show (fmtStep vl m n (between s j) b.byte).bind some = _
  rw [fmtStep, if_neg (by simp [between]), if_neg b.ne_percent]
  rfl

/-- What the text of a conversion does is what its `case` does. -/
theorem fmtLoop_text (l : Bool) (k : Conv) (s : Sink 32 Byte) (j : Nat) :
    fmtLoop vl m n (Item.conv l k).text (between s j)
      = fmtStep vl m n ⟨true, l, s, j⟩ k.letter := by
  cases l with
  | false =>
      show (fmtStep vl m n ⟨true, false, s, j⟩ k.letter).bind some = _
      exact Option.bind_fun_some _
  | true =>
      show (fmtStep vl m n ⟨true, true, s, j⟩ k.letter).bind some = _
      exact Option.bind_fun_some _

/-- The switch on `s`. -/
theorem fmtStep_s (l : Bool) (s : Sink 32 Byte) (j : Nat) :
    fmtStep vl m n ⟨true, l, s, j⟩ (asc 's') = caseS vl m n ⟨true, l, s, j⟩ := by
  have hne : asc 's' ≠ asc 'l' ∧ asc 's' ≠ asc 'p' ∧ asc 's' ≠ asc 'x' ∧ asc 's' ≠ asc 'd' := by
    decide
  rw [fmtStep, if_pos rfl, if_neg hne.1, if_neg hne.2.1, if_neg hne.2.2.1, if_neg hne.2.2.2,
    if_pos rfl]

/-- A conversion other than `%c` emits its rendering and takes one
argument. -/
theorem fmtLoop_conv {l : Bool} {k : Conv} (hk : k ≠ .c) {s : Sink 32 Byte} {j : Nat}
    (hread : Readable m k (vl j)) :
    fmtLoop vl m n (Item.conv l k).text (between s j)
      = some (between (s.emit n (renderConv m (vl j) k)) (j + 1)) := by
  rw [fmtLoop_text]
  cases k with
  | d =>
      -- `%d`: the sign is put first, then the digits.
      show some (caseD vl n ⟨true, l, s, j⟩) = some (between (s.emit n (renderDec (vl j))) (j + 1))
      rw [caseD, putDec_advance, renderDec]
      cases hneg : (vl j).slt 0#32 with
      | false => simp only [between, Bool.false_eq_true, if_false]
      | true => simp only [between, if_true, Sink.emit_cons]
  | x =>
      -- `%x` and `%p` always write eight digits.
      show some (between (putHex n (vl j) 8 s) (j + 1)) = _
      rw [putHex_eq, renderConv]
  | p =>
      show some (between (putHex n (vl j) 8 ((s.put n (asc '0')).put n (asc 'x'))) (j + 1)) = _
      rw [putHex_eq, renderConv, Sink.emit_cons, Sink.emit_cons]
  | s =>
      -- `%s` reads its string, which `hread` says has an end.
      obtain ⟨bs, hbs⟩ := Option.ne_none_iff_exists'.mp (hread rfl)
      rw [Conv.letter, fmtStep_s, caseS, renderConv, hbs]
      rfl
  | c => exact absurd rfl hk

/-- A `%s` whose argument is no string is read forever. -/
theorem fmtLoop_conv_none {l : Bool} {k : Conv} {s : Sink 32 Byte} {j : Nat}
    (hread : ¬ Readable m k (vl j)) :
    fmtLoop vl m n (Item.conv l k).text (between s j) = none := by
  have hks : k = .s ∧ cString m (vl j) = none := by
    simpa [Readable] using hread
  obtain ⟨rfl, hnone⟩ := hks
  rw [fmtLoop_text, Conv.letter, fmtStep_s, caseS, hnone]
  rfl

/-- `%c` takes its argument only when it writes it. -/
theorem fmtLoop_char (l : Bool) (s : Sink 32 Byte) (j : Nat) :
    fmtLoop vl m n (Item.conv l .c).text (between s j)
      = some (between (s.put n ((vl j).setWidth 8))
          (if s.out.isSome ∧ s.pos < n then j + 1 else j)) := by
  rw [fmtLoop_text]
  rfl

/-! ### A whole format -/

/-- A pass over a format without `%c`. -/
theorem fmtLoop_noChar (items : List Item) :
    ∀ (s : Sink 32 Byte) (j : Nat), (∀ l, .conv l .c ∉ items) → Matches vl m items j →
      ∃ j', fmtLoop vl m n (formatText items) (between s j)
        = some (between (s.emit n (render vl m items j)) j') := by
  induction items with
  | nil => exact fun s j _ _ => ⟨j, rfl⟩
  | cons item items ih =>
      intro s j hno hmatch
      -- The rest of the format has no `%c` either.
      have hno' : ∀ l, .conv l .c ∉ items := fun l h => hno l (List.mem_cons_of_mem _ h)
      rw [formatText_cons, fmtLoop_append]
      cases item with
      | lit b =>
          rw [fmtLoop_lit]
          exact ih (s.put n b.byte) j hno' hmatch
      | conv l k =>
          have hk : k ≠ .c := by
            rintro rfl
            exact hno l List.mem_cons_self
          rw [fmtLoop_conv vl m n hk hmatch.1, render, Sink.emit_append]
          exact ih _ (j + 1) hno' hmatch.2

/-- A pass that ends has taken an argument for each conversion other than
`%c`. Without a destination it has taken no other. -/
theorem fmtLoop_next (items : List Item) :
    ∀ (s : Sink 32 Byte) (j : Nat) (st : Fmt),
      fmtLoop vl m n (formatText items) (between s j) = some st →
      j + plainConvs items ≤ st.next ∧ (s.out = none → st.next = j + plainConvs items) := by
  induction items with
  | nil =>
      intro s j st h
      obtain rfl := Option.some.inj h
      exact ⟨Nat.le_refl j, fun _ => rfl⟩
  | cons item items ih =>
      intro s j st h
      rw [formatText_cons, fmtLoop_append] at h
      have hnone : ∀ bs, s.out = none → (s.emit n bs).out = none := by
        intro bs hs
        have := Sink.emit_out_isSome n bs s
        rw [hs] at this
        simpa using this
      cases item with
      | lit b =>
          rw [fmtLoop_lit] at h
          obtain ⟨hle, heq⟩ := ih _ j st h
          exact ⟨hle, fun hs => heq (hnone [b.byte] hs)⟩
      | conv l k =>
          -- Only `%c` may take nothing.
          by_cases hk : k = .c
          · subst hk
            rw [fmtLoop_char] at h
            obtain ⟨hle, heq⟩ := ih _ _ st h
            have hplain : plainConvs (.conv l .c :: items) = plainConvs items := rfl
            rw [hplain]
            refine ⟨?_, fun hs => ?_⟩
            · split at hle <;> omega
            · rw [heq (hnone [_] hs), if_neg (by simp [hs])]
          · by_cases hread : Readable m k (vl j)
            · rw [fmtLoop_conv vl m n hk hread] at h
              obtain ⟨hle, heq⟩ := ih _ (j + 1) st h
              rw [plainConvs_conv hk]
              exact ⟨by omega, fun hs => by rw [heq (hnone _ hs)]; omega⟩
            · rw [fmtLoop_conv_none vl m n hread] at h
              exact absurd h (by simp)

/-- A pass with quiet `%c`s ends, and it ends the same way without a
destination. Induction on the format, both passes in step. -/
theorem fmtLoop_quiet (items : List Item) :
    ∀ (s : Sink 32 Byte) (j : Nat), QuietChars vl m items j s.pos →
      ∃ s' j', fmtLoop vl m n (formatText items) (between s j) = some (between s' j') ∧
        ∀ n', fmtLoop vl m n' (formatText items) (between s.forget j)
          = some (between s'.forget j') := by
  induction items with
  | nil => exact fun s j _ => ⟨s, j, rfl, fun _ => rfl⟩
  | cons item items ih =>
      intro s j hquiet
      -- What the two passes emit differs in the destination only.
      have hforget : ∀ n' bs, s.forget.emit n' bs = (s.emit n bs).forget :=
        fun n' bs => (Sink.forget_emit n n' bs s).symm
      simp only [formatText_cons, fmtLoop_append]
      cases item with
      | lit b =>
          obtain ⟨s', j', hrun, hcount⟩ := ih (s.put n b.byte) j hquiet
          refine ⟨s', j', ?_, fun n' => ?_⟩
          · rw [fmtLoop_lit]
            exact hrun
          · have hput : s.forget.put n' b.byte = (s.put n b.byte).forget := hforget n' [b.byte]
            rw [fmtLoop_lit, hput]
            exact hcount n'
      | conv l k =>
          by_cases hk : k = .c
          · -- At the last index of all, neither pass takes the argument.
            subst hk
            obtain ⟨hpos, hquiet⟩ := hquiet
            have hlast : ∀ x : Word, ¬ -1#32 < x := by
              intro x
              bv_omega
            obtain ⟨s', j', hrun, hcount⟩ := ih (s.put n ((vl j).setWidth 8)) j hquiet
            refine ⟨s', j', ?_, fun n' => ?_⟩
            · rw [fmtLoop_char, if_neg (fun h => hlast n (hpos ▸ h.2))]
              exact hrun
            · have hput : s.forget.put n' ((vl j).setWidth 8)
                  = (s.put n ((vl j).setWidth 8)).forget := hforget n' [_]
              rw [fmtLoop_char, if_neg (by simp [Sink.forget]), hput]
              exact hcount n'
          · obtain ⟨hread, hrest⟩ := (quietChars_conv vl m hk).mp hquiet
            -- The position behind the conversion is where the rest of the format
            -- starts.
            rw [← Sink.emit_pos n] at hrest
            obtain ⟨s', j', hrun, hcount⟩ := ih _ (j + 1) hrest
            refine ⟨s', j', ?_, fun n' => ?_⟩
            · rw [fmtLoop_conv vl m n hk hread]
              exact hrun
            · rw [fmtLoop_conv vl m n' hk hread, hforget]
              exact hcount n'

end Pass

section Agreement

variable (vl : Nat → Word) (m : Mem)

/-- If a writing pass with the largest size takes no more arguments than
the counting pass, then all `%c` are quiet. At the first one that is not,
the writing pass is one argument ahead, and it stays ahead. -/
theorem quiet_of_next_eq (items : List Item) :
    ∀ (s : Sink 32 Byte) (j : Nat) (st st' : Fmt), s.out.isSome →
      fmtLoop vl m (-1#32) (formatText items) (between s j) = some st →
      fmtLoop vl m (-1#32) (formatText items) (between s.forget j) = some st' →
      st.next = st'.next → QuietChars vl m items j s.pos := by
  induction items with
  | nil => exact fun _ _ _ _ _ _ _ _ => trivial
  | cons item items ih =>
      intro s j st st' hout hrun hcount hnext
      have hforget : ∀ bs, s.forget.emit (-1#32) bs = (s.emit (-1#32) bs).forget :=
        fun bs => (Sink.forget_emit (-1#32) (-1#32) bs s).symm
      have hout' : ∀ bs, (s.emit (-1#32) bs).out.isSome := fun bs => by
        rw [Sink.emit_out_isSome]
        exact hout
      rw [formatText_cons, fmtLoop_append] at hrun hcount
      cases item with
      | lit b =>
          rw [fmtLoop_lit] at hrun hcount
          have hput : s.forget.put (-1#32) b.byte = (s.put (-1#32) b.byte).forget :=
            hforget [b.byte]
          rw [hput] at hcount
          exact ih (s.put (-1#32) b.byte) j st st' (hout' [b.byte]) hrun hcount hnext
      | conv l k =>
          by_cases hk : k = .c
          · subst hk
            rw [fmtLoop_char] at hrun hcount
            rw [if_neg (by simp [Sink.forget])] at hcount
            have hput : s.forget.put (-1#32) ((vl j).setWidth 8)
                = (s.put (-1#32) ((vl j).setWidth 8)).forget := hforget [_]
            rw [hput] at hcount
            -- Written, the argument is taken: the writing pass is ahead, for good.
            by_cases hlt : s.pos < -1#32
            · rw [if_pos ⟨hout, hlt⟩] at hrun
              have hahead := (fmtLoop_next vl m (-1#32) items _ (j + 1) st hrun).1
              have hbehind := (fmtLoop_next vl m (-1#32) items _ j st' hcount).2 rfl
              omega
            · rw [if_neg (fun h => hlt h.2)] at hrun
              have hpos : s.pos = -1#32 := by bv_omega
              exact ⟨hpos, ih _ j st st' (hout' [_]) hrun hcount hnext⟩
          · by_cases hread : Readable m k (vl j)
            · rw [fmtLoop_conv vl m (-1#32) hk hread] at hrun hcount
              rw [hforget] at hcount
              have hrest := ih _ (j + 1) st st' (hout' _) hrun hcount hnext
              rw [Sink.emit_pos] at hrest
              exact (quietChars_conv vl m hk).mpr ⟨hread, hrest⟩
            · rw [fmtLoop_conv_none vl m (-1#32) hread] at hrun
              exact absurd hrun (by simp)

/-- Quiet `%c`s in a rendering that does not reach the last index: there
are none. -/
theorem noChar_of_quiet (items : List Item) :
    ∀ (j : Nat) (pos : Word), QuietChars vl m items j pos →
      pos.toNat + (render vl m items j).length < 2 ^ 32 - 1 → ∀ l, .conv l .c ∉ items := by
  induction items with
  | nil => simp
  | cons item items ih =>
      intro j pos hquiet hlen
      -- The position does not wrap before the end of the rendering.
      have hmove : ∀ k : Nat, pos.toNat + k < 2 ^ 32 →
          (pos + BitVec.ofNat 32 k).toNat = pos.toNat + k := by
        intro k hk
        bv_omega
      cases item with
      | lit b =>
          rw [render, List.length_cons] at hlen
          have hrest := ih j (pos + 1#32) hquiet (by rw [hmove 1 (by omega)]; omega)
          intro l hmem
          rcases List.mem_cons.mp hmem with h | h
          · exact absurd h (by simp)
          · exact hrest l h
      | conv l k =>
          rw [render, List.length_append] at hlen
          by_cases hk : k = .c
          · subst hk
            -- It would stand at the last index, which the rendering does not reach.
            have hpos : pos = -1#32 := hquiet.1
            rw [hpos] at hlen
            have hmax : (-1#32 : Word).toNat = 2 ^ 32 - 1 := rfl
            omega
          · obtain ⟨-, hquiet⟩ := (quietChars_conv vl m hk).mp hquiet
            have hrest := ih (j + 1) _ hquiet (by rw [hmove _ (by omega)]; omega)
            intro l' hmem
            rcases List.mem_cons.mp hmem with h | h
            · injection h with _ h
              exact hk h.symm
            · exact hrest l' h

end Agreement

/-! ### The text that comes out -/

/-- A hexadecimal digit is not the NUL. -/
theorem hexDigit_ne_zero (num : Word) (i : Nat) : hexDigit num i ≠ 0#8 := by
  -- A digit below 16 is `'0' + d` or `'a' + d - 10`.
  have hd : (num.sshiftRight (4 * i) &&& 0xF#32).toNat < 16 := by
    rw [BitVec.toNat_and]
    exact Nat.lt_succ_of_le Nat.and_le_right
  rw [hexDigit]
  generalize num.sshiftRight (4 * i) &&& 0xF#32 = d at hd
  have h0 : asc '0' = 48#8 := rfl
  have ha : asc 'a' = 97#8 := rfl
  simp only [h0, ha]
  split <;> bv_omega

/-- What `%d` puts for a digit is not the NUL. -/
theorem decDigit_ne_zero (num : Word) : decDigit num ≠ 0#8 := by
  -- A remainder modulo 10 is between -9 and 9.
  have hrem := BitVec.toInt_srem num 10#32
  have h10 : (10#32 : Word).toInt = 10 := rfl
  rw [h10] at hrem
  have hlo : -10 < (num.srem 10#32).toInt := by
    rw [hrem]
    exact Int.lt_tmod_of_pos _ (by decide)
  have hhi : (num.srem 10#32).toInt < 10 := by
    rw [hrem]
    exact Int.tmod_lt_of_pos _ (by decide)
  rw [decDigit]
  generalize num.srem 10#32 = r at hlo hhi
  have h0 : asc '0' = 48#8 := rfl
  have hr : r.toNat < 10 ∨ 2 ^ 32 - 10 < r.toNat := by
    rw [BitVec.toInt_eq_toNat_cond] at hlo hhi
    have := r.isLt
    split at hlo <;> omega
  rw [h0]
  bv_omega

/-- A string ends before its NUL. -/
theorem ne_zero_of_mem_cstr (m : Mem) (fuel : Nat) :
    ∀ (p : Addr) (bs : List Byte), cstr m fuel p = some bs → ∀ b ∈ bs, b ≠ 0#8 := by
  induction fuel with
  | zero =>
      intro p bs h
      exact absurd h (by simp [cstr])
  | succ fuel ih =>
      intro p bs h
      rw [cstr] at h
      by_cases hp : m p = 0#8
      · rw [if_pos hp] at h
        obtain rfl := Option.some.inj h
        simp
      · rw [if_neg hp] at h
        obtain ⟨cs, hcs, rfl⟩ := Option.map_eq_some_iff.mp h
        intro b hb
        rcases List.mem_cons.mp hb with rfl | hb
        · exact hp
        · exact ih _ cs hcs b hb

/-- Reading back a string that was written with its NUL. -/
theorem cstr_eq (m : Mem) (bs : List Byte) :
    ∀ (p : Addr) (fuel : Nat), (∀ b ∈ bs, b ≠ 0#8) →
      (∀ i, ∀ hi : i < bs.length, m (p + BitVec.ofNat 32 i) = bs[i]) →
      m (p + BitVec.ofNat 32 bs.length) = 0#8 → bs.length < fuel → cstr m fuel p = some bs := by
  induction bs with
  | nil =>
      intro p fuel _ _ hend hfuel
      obtain ⟨fuel, rfl⟩ := Nat.exists_eq_add_of_lt hfuel
      have hp : m p = 0#8 := by simpa using hend
      have hcomm : ([] : List Byte).length + fuel + 1 = fuel + 1 := by simp
      rw [hcomm, cstr, if_pos hp]
  | cons b bs ih =>
      intro p fuel hne hmem hend hfuel
      -- The first byte is no NUL, so the string goes on at `p + 1`.
      obtain ⟨fuel, rfl⟩ : ∃ f, fuel = f + 1 := ⟨fuel - 1, by omega⟩
      have hp : m p = b := by
        have hfirst := hmem 0 (Nat.succ_pos _)
        rwa [add_ofNat_zero] at hfirst
      have hstep : ∀ i : Nat, p + 1#32 + BitVec.ofNat 32 i = p + BitVec.ofNat 32 (i + 1) :=
        add_one_add_ofNat p
      have hrest := ih (p + 1#32) fuel (fun c hc => hne c (List.mem_cons_of_mem b hc))
        (fun i hi => by
          rw [hstep]
          exact hmem (i + 1) (Nat.succ_lt_succ hi))
        (by
          rw [hstep]
          exact hend)
        (by simpa using hfuel)
      rw [cstr, hp, if_neg (hne b List.mem_cons_self), hrest]
      rfl

/-- `lib_puts(out_buf)` after a pass into `out_buf` that ended in its NUL. -/
theorem putsOutBuf_emit {bs : List Byte} (hne : ∀ b ∈ bs, b ≠ 0#8) {n : Word}
    (hn : n.toNat = bs.length + 1) (outBuf : Nat → Byte) :
    putsOutBuf ((Sink.close n 0#8 (Sink.emit n bs ⟨0#32, some outBuf⟩)).out.getD outBuf)
      = some bs := by
  have hmax := n.isLt
  have hzero : (0#32 : Word).toNat = 0 := rfl
  have hplace : ∀ i, i ≤ bs.length → ((0#32 : Word) + BitVec.ofNat 32 i).toNat = i := by
    intro i hi
    rw [BitVec.zero_add, BitVec.toNat_ofNat]
    exact Nat.mod_eq_of_lt (by omega)
  have hend := hplace bs.length (Nat.le_refl _)
  have hlt : (0#32 : Word) + BitVec.ofNat 32 bs.length < n := by
    rw [BitVec.lt_def, hend]
    omega
  rw [Sink.emit_eq n bs ⟨0#32, some outBuf⟩ (by rw [hzero]; omega)]
  show cString (fun a => (if (0#32 : Word) + BitVec.ofNat 32 bs.length < n then _ else _ :
    Nat → Byte) a.toNat) 0#32 = _
  rw [if_pos hlt, hend, hn]
  -- The buffer is `bs` and, behind it, the NUL.
  refine cstr_eq _ bs 0#32 (2 ^ 32) hne ?_ ?_ (by omega)
  · intro i hi
    show Function.update (writeAt (bs.length + 1) outBuf 0 bs) bs.length 0#8 _ = _
    rw [hplace i (Nat.le_of_lt hi), Function.update_of_ne (Nat.ne_of_lt hi)]
    have hinside := writeAt_inside outBuf (p := 0) hi (n := bs.length + 1) (by omega)
    rwa [Nat.zero_add] at hinside
  · show Function.update (writeAt (bs.length + 1) outBuf 0 bs) bs.length 0#8 _ = _
    rw [hend, Function.update_self]

/-- No conversion but `%c` puts out a NUL. -/
theorem renderConv_ne_zero (m : Mem) (w : Word) {k : Conv} (hk : k ≠ .c) :
    ∀ b ∈ renderConv m w k, b ≠ 0#8 := by
  -- The digits are no NUL, and no more is the sign or the `0x`.
  have hhex : ∀ i, ∀ b ∈ renderHex w i, b ≠ 0#8 := by
    intro i
    induction i with
    | zero => simp [renderHex]
    | succ i ih =>
        intro b hb
        rcases List.mem_cons.mp hb with rfl | hb
        · exact hexDigit_ne_zero w i
        · exact ih b hb
  have hdec : ∀ i num, ∀ b ∈ decDigits i num, b ≠ 0#8 := by
    intro i
    induction i with
    | zero => simp [decDigits]
    | succ i ih =>
        intro num b hb
        rcases List.mem_cons.mp hb with rfl | hb
        · exact decDigit_ne_zero num
        · exact ih _ b hb
  have hsign : asc '-' ≠ 0#8 ∧ asc '0' ≠ 0#8 ∧ asc 'x' ≠ 0#8 := by decide
  intro b hb
  cases k with
  | d =>
      rw [renderConv, renderDec] at hb
      split at hb
      · rcases List.mem_cons.mp hb with rfl | hb
        · exact hsign.1
        · exact hdec _ _ b (List.mem_reverse.mp hb)
      · exact hdec _ _ b (List.mem_reverse.mp hb)
  | x => exact hhex 8 b hb
  | p =>
      rcases List.mem_cons.mp hb with rfl | hb
      · exact hsign.2.1
      · rcases List.mem_cons.mp hb with rfl | hb
        · exact hsign.2.2
        · exact hhex 8 b hb
  | s =>
      rw [renderConv] at hb
      -- A string ends before its NUL.
      cases hs : cString m w with
      | none => simp [hs] at hb
      | some bs =>
          rw [hs] at hb
          exact ne_zero_of_mem_cstr m _ _ bs hs b hb
  | c => exact absurd rfl hk

/-- Without a `%c` the rendering has no NUL. -/
theorem render_ne_zero (vl : Nat → Word) (m : Mem) (items : List Item) :
    ∀ j, (∀ l, .conv l .c ∉ items) → ∀ b ∈ render vl m items j, b ≠ 0#8 := by
  induction items with
  | nil => simp [render]
  | cons item items ih =>
      intro j hno b hb
      have hno' : ∀ l, .conv l .c ∉ items := fun l h => hno l (List.mem_cons_of_mem _ h)
      cases item with
      | lit c =>
          rcases List.mem_cons.mp hb with rfl | hb
          · exact c.ne_nul
          · exact ih j hno' b hb
      | conv l k =>
          have hk : k ≠ .c := by
            rintro rfl
            exact hno l List.mem_cons_self
          rcases List.mem_append.mp hb with hb | hb
          · exact renderConv_ne_zero m _ hk b hb
          · exact ih (j + 1) hno' b hb

/-- A call of `lib_vprintf`: a format with arguments that match it. -/
structure PrintfCall where
  vl : Nat → Word
  mem : Mem
  items : List Item
  matched : Matches vl mem items 0

namespace PrintfCall

variable (c : PrintfCall)

/-- The rendering of the call. -/
def rendering : List Byte := render c.vl c.mem c.items 0

/-- The counting pass of the call. -/
def counting : Option Fmt := libVsnprintf c.vl c.mem (-1#32) none (formatText c.items)

/-- Each writing pass returns what the counting pass returns, and takes as
many arguments. An argument list is taken in its order, so they are the
same ones. -/
def PassesAgree : Prop :=
  ∃ st, c.counting = some st ∧ ∀ n out, ∃ st',
    libVsnprintf c.vl c.mem n (some out) (formatText c.items) = some st' ∧
    st'.sink.pos = st.sink.pos ∧ st'.next = st.next

/-- If the rendering fits in `out_buf` together with its NUL, it is what
`lib_vprintf` sends to the UART. -/
def EmitsRendering : Prop :=
  c.rendering.length + 1 ≤ outBufSize → ∀ outBuf,
    libVprintf c.vl c.mem outBuf (formatText c.items)
      = some ⟨c.rendering, some (BitVec.ofNat 32 c.rendering.length)⟩

/-- No `%c` is converted where it could be written, and the rendering is
not one byte short of `out_buf`. -/
def Harmless : Prop :=
  QuietChars c.vl c.mem c.items 0 0#32 ∧ c.rendering.length + 1 ≠ outBufSize

/-- A pass over a call without `%c`. -/
theorem pass_eq (hno : ∀ l, .conv l .c ∉ c.items) (n : Word) (out : Option (Nat → Byte)) :
    ∃ j, libVsnprintf c.vl c.mem n out (formatText c.items)
      = some (between ((Sink.emit n c.rendering ⟨0#32, out⟩).close n 0#8) j) := by
  obtain ⟨j, hrun⟩ := fmtLoop_noChar c.vl c.mem n c.items ⟨0#32, out⟩ 0 hno c.matched
  refine ⟨j, ?_⟩
  show (fmtLoop c.vl c.mem n (formatText c.items) (between ⟨0#32, out⟩ 0)).map _ = _
  rw [hrun]
  rfl

/-- What `lib_vprintf` finds out first: the length of the rendering. -/
theorem counting_pos (hno : ∀ l, .conv l .c ∉ c.items) :
    ∃ st, c.counting = some st ∧ st.sink.pos = BitVec.ofNat 32 c.rendering.length := by
  obtain ⟨j, hrun⟩ := c.pass_eq hno (-1#32) none
  refine ⟨_, hrun, ?_⟩
  show (Sink.emit (-1#32) c.rendering ⟨0#32, none⟩).pos = _
  rw [Sink.emit_pos]
  exact BitVec.zero_add _

/-- Where no `%c` is written the passes agree. -/
theorem passesAgree_of_quiet (hquiet : QuietChars c.vl c.mem c.items 0 0#32) :
    c.PassesAgree := by
  -- Both passes stop at the same position with the same count of arguments.
  have hpass : ∀ n out, ∃ (s' : Sink 32 Byte) (j' : Nat),
      libVsnprintf c.vl c.mem n (some out) (formatText c.items)
        = some (between (s'.close n 0#8) j') ∧
      c.counting = some (between (s'.forget.close (-1#32) 0#8) j') := by
    intro n out
    obtain ⟨s', j', hrun, hcount⟩ :=
      fmtLoop_quiet c.vl c.mem n c.items ⟨0#32, some out⟩ 0 hquiet
    refine ⟨s', j', ?_, ?_⟩
    · show (fmtLoop c.vl c.mem n (formatText c.items) (between ⟨0#32, some out⟩ 0)).map _ = _
      rw [hrun]
      rfl
    · show (fmtLoop c.vl c.mem (-1#32) (formatText c.items)
        (between (Sink.forget ⟨0#32, some out⟩) 0)).map _ = _
      rw [hcount]
      rfl
  -- The counting pass does not depend on the buffer, so one run of it serves all.
  obtain ⟨s, j, -, hcount⟩ := hpass 0#32 fun _ => 0#8
  refine ⟨_, hcount, fun n out => ?_⟩
  obtain ⟨s', j', hrun, hcount'⟩ := hpass n out
  rw [hcount] at hcount'
  have heq := Option.some.inj hcount'
  refine ⟨_, hrun, ?_, ?_⟩
  · have hpos : s.pos = s'.pos := congrArg (fun st : Fmt => st.sink.pos) heq
    exact hpos.symm
  · have hnext : j = j' := congrArg Fmt.next heq
    exact hnext.symm

/-- Where the passes agree no `%c` is written. -/
theorem quiet_of_passesAgree (h : c.PassesAgree) : QuietChars c.vl c.mem c.items 0 0#32 := by
  obtain ⟨st, hcount, hagree⟩ := h
  obtain ⟨st', hrun, -, hnext⟩ := hagree (-1#32) fun _ => 0#8
  obtain ⟨st₁, hrun₁, rfl⟩ := Option.map_eq_some_iff.mp hrun
  obtain ⟨st₂, hcount₂, rfl⟩ := Option.map_eq_some_iff.mp hcount
  exact quiet_of_next_eq c.vl c.mem c.items ⟨0#32, some fun _ => 0#8⟩ 0 st₁ st₂ rfl hrun₁ hcount₂
    hnext

/-- `lib_vprintf` on a call without `%c` whose rendering is short enough. -/
theorem libVprintf_eq (hno : ∀ l, .conv l .c ∉ c.items)
    (hlen : c.rendering.length + 1 < outBufSize) (outBuf : Nat → Byte) :
    libVprintf c.vl c.mem outBuf (formatText c.items)
      = some ⟨c.rendering, some (BitVec.ofNat 32 c.rendering.length)⟩ := by
  obtain ⟨st, hcount, hpos⟩ := c.counting_pos hno
  have hsize : c.rendering.length + 1 < 1000 := hlen
  have hres : st.sink.pos + 1#32 = BitVec.ofNat 32 (c.rendering.length + 1) := by
    rw [hpos, BitVec.ofNat_add]
  -- `res + 1` is the size of the second pass: the rendering and its NUL.
  have hresNat : (st.sink.pos + 1#32).toNat = c.rendering.length + 1 := by
    rw [hres, BitVec.toNat_ofNat]
    exact Nat.mod_eq_of_lt (by omega)
  obtain ⟨j, hrun⟩ := c.pass_eq hno (st.sink.pos + 1#32) (some outBuf)
  have hputs := putsOutBuf_emit (render_ne_zero c.vl c.mem c.items 0 hno) hresNat outBuf
  have hcount' : libVsnprintf c.vl c.mem (-1#32) none (formatText c.items) = some st := hcount
  have hsmall : ¬ outBufSize ≤ (st.sink.pos + 1#32).toNat := by
    rw [hresNat]
    omega
  simp only [libVprintf, hcount', Option.bind_eq_bind, Option.bind_some, if_neg hsmall, hrun]
  show ((putsOutBuf _).bind fun text => some (⟨text, some st.sink.pos⟩ : Printed)) = _
  rw [← hpos]
  exact (congrArg (Option.bind · _) hputs)

/-- `lib_vprintf` on a call whose rendering is one byte short of
`out_buf`: it reports an overflow and does not return. -/
theorem libVprintf_overflow (hno : ∀ l, .conv l .c ∉ c.items)
    (hlen : c.rendering.length + 1 = outBufSize) (outBuf : Nat → Byte) :
    libVprintf c.vl c.mem outBuf (formatText c.items) = some ⟨overflowText, none⟩ := by
  obtain ⟨st, hcount, hpos⟩ := c.counting_pos hno
  have hsize : c.rendering.length + 1 = 1000 := hlen
  have hresNat : (st.sink.pos + 1#32).toNat = c.rendering.length + 1 := by
    rw [hpos, ← BitVec.ofNat_add, BitVec.toNat_ofNat]
    exact Nat.mod_eq_of_lt (by omega)
  have hcount' : libVsnprintf c.vl c.mem (-1#32) none (formatText c.items) = some st := hcount
  -- The test is `res + 1 >= sizeof(out_buf)`, so this size is refused.
  have hlarge : outBufSize ≤ (st.sink.pos + 1#32).toNat := by
    rw [hresNat]
    omega
  simp only [libVprintf, hcount', Option.bind_eq_bind, Option.bind_some, if_pos hlarge]
  rfl

end PrintfCall

/-- When the two passes agree and `lib_vprintf` emits each rendering that
fits: exactly when no `%c` is converted where it could be written, and the
rendering is not one byte short of `out_buf`. -/
theorem passes_agree_iff (c : PrintfCall) :
    (c.PassesAgree ∧ c.EmitsRendering) ↔ c.Harmless := by
  have hno : QuietChars c.vl c.mem c.items 0 0#32 → c.rendering.length + 1 ≤ outBufSize →
      ∀ l, .conv l .c ∉ c.items := by
    intro hquiet hfit
    have hsize : c.rendering.length + 1 ≤ 1000 := hfit
    have hlen : (render c.vl c.mem c.items 0).length + 1 ≤ 1000 := hsize
    refine noChar_of_quiet c.vl c.mem c.items 0 0#32 hquiet ?_
    have hzero : (0#32 : Word).toNat = 0 := rfl
    omega
  constructor
  · rintro ⟨hagree, hemits⟩
    have hquiet := c.quiet_of_passesAgree hagree
    refine ⟨hquiet, fun hlen => ?_⟩
    -- The rendering fits, and yet `lib_vprintf` does not return.
    have hemit := hemits (Nat.le_of_eq hlen) fun _ => 0#8
    rw [c.libVprintf_overflow (hno hquiet (Nat.le_of_eq hlen)) hlen] at hemit
    simp at hemit
  · rintro ⟨hquiet, hlen⟩
    refine ⟨c.passesAgree_of_quiet hquiet, fun hfit outBuf => ?_⟩
    exact c.libVprintf_eq (hno hquiet hfit) (Nat.lt_of_le_of_ne hfit hlen) outBuf

/-- `lib_printf("%c%d", 'A', 1234567)`. -/
def charThenDec : PrintfCall where
  vl := fun j => if j = 0 then 65#32 else 1234567#32
  mem := fun _ => 0#8
  items := [.conv false .c, .conv false .d]
  matched := ⟨fun h => absurd h (by decide), fun h => absurd h (by decide), trivial⟩

/-- The counting pass takes one argument and finds three characters, a
writing pass takes two and finds eight. So `lib_vprintf` prints `A12`. -/
theorem charThenDec_disagree :
    charThenDec.rendering = "A1234567".toList.map asc ∧
    libVprintf charThenDec.vl charThenDec.mem (fun _ => 0#8) (formatText charThenDec.items)
      = some ⟨"A12".toList.map asc, some 3#32⟩ ∧
    ¬ (charThenDec.PassesAgree ∧ charThenDec.EmitsRendering) := by
  refine ⟨by decide, by decide, ?_⟩
  rintro ⟨⟨st, hcount, hagree⟩, -⟩
  obtain ⟨st', hrun, -, hnext⟩ := hagree 4#32 fun _ => 0#8
  have hone : charThenDec.counting.map Fmt.next = some 1 := by decide
  have htwo : (libVsnprintf charThenDec.vl charThenDec.mem 4#32 (some fun _ => 0#8)
      (formatText charThenDec.items)).map Fmt.next = some 2 := by decide
  rw [hcount] at hone
  rw [hrun] at htwo
  have h1 := Option.some.inj hone
  have h2 := Option.some.inj htwo
  omega

end MiniRiscvOs.Proofs
