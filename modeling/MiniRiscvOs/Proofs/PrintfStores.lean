import MiniRiscvOs.Proofs.Format
import MiniRiscvOs.Kernel.PrintfTrap

/-!
# `MiniRiscvOs.Proofs.PrintfStores`: the stores of a writing pass

`lib_vsnprintf` stores one byte at a time. `mem_passStores` gives the
stores of a pass as a set: each byte of its text at its index, and the NUL
behind it. Only `%d` stores back to front.

* `libVsnprintf_stores` says that the stores, one after the other, are what
  `lib_vsnprintf` does to the buffer.
* `passStores_lt`: none of them is at the size of the buffer or above.
* `passText_room`: a text that has room is the same whatever the size is.
  Without room a `%c` does not take its argument.
-/

set_option autoImplicit false

namespace MiniRiscvOs.Proofs

open MiniRiscvOs.Lib
open MiniRiscvOs.Kernel

/-! ### The stores of a pass -/

/-- The store `e` is one of those that lay down `bs` from index `p` on. -/
def Laid (p : Nat) (bs : List Byte) (e : Nat × Byte) : Prop :=
  p ≤ e.1 ∧ bs[e.1 - p]? = some e.2

/-- The first list is laid down first, and the second one behind it. -/
theorem laid_append (p : Nat) (as bs : List Byte) (e : Nat × Byte) :
    Laid p (as ++ bs) e ↔ Laid p as e ∨ Laid (p + as.length) bs e := by
  unfold Laid
  by_cases hlt : e.1 - p < as.length
  · rw [List.getElem?_append_left hlt]
    constructor
    · exact Or.inl
    · rintro (h | ⟨hle, -⟩)
      · exact h
      · omega
  · rw [List.getElem?_append_right (by omega), List.getElem?_eq_none (l := as) (by omega),
      Nat.sub_sub]
    constructor
    · rintro ⟨hle, hb⟩
      exact Or.inr ⟨by omega, hb⟩
    · rintro (⟨-, h⟩ | ⟨hle, hb⟩)
      · cases h
      · exact ⟨by omega, hb⟩

/-- One byte is one store. -/
theorem laid_singleton (p : Nat) (b : Byte) (e : Nat × Byte) : Laid p [b] e ↔ e = (p, b) := by
  obtain ⟨i, b'⟩ := e
  unfold Laid
  constructor
  · rintro ⟨hle, hb⟩
    obtain ⟨hlt, hb⟩ := List.getElem?_eq_some_iff.mp hb
    have hi : i - p = 0 := by simpa using hlt
    have hip : i = p := by
      have hle' : p ≤ i := hle
      omega
    subst hip
    simpa using hb.symm
  · intro h
    cases h
    simp

/-- Nothing needs no store. -/
theorem not_laid_nil (p : Nat) (e : Nat × Byte) : ¬ Laid p [] e := by
  rintro ⟨-, h⟩
  cases h

section Stores

variable (n : Word)

/-- With room the byte is stored at the position. -/
theorem mem_putStore {pos : Word} (hroom : pos.toNat < n.toNat) (b : Byte) (e : Nat × Byte) :
    e ∈ putStore n pos b ↔ e = (pos.toNat, b) := by
  rw [putStore, if_pos (BitVec.lt_def.mpr hroom), List.mem_singleton]

/-- With room for all of it a text is laid down from the position on. -/
theorem mem_strStores (bs : List Byte) (pos : Word) (hroom : pos.toNat + bs.length ≤ n.toNat)
    (e : Nat × Byte) : e ∈ strStores n pos bs ↔ Laid pos.toNat bs e := by
  have hmax := n.isLt
  induction bs generalizing pos with
  | nil => simp [strStores, not_laid_nil]
  | cons b bs ih =>
      rw [List.length_cons] at hroom
      have hone : (pos + 1#32).toNat = pos.toNat + 1 := toNat_add_ofNat (by omega)
      have hfirst := (mem_putStore n (by omega) b e).trans (laid_singleton pos.toNat b e).symm
      have hrest := ih (pos + 1#32) (by omega)
      rw [hone] at hrest
      exact (List.mem_append.trans (or_congr hfirst hrest)).trans
        (laid_append pos.toNat [b] bs e).symm

/-- The stores of a hexadecimal number are those of its text. -/
theorem hexStores_eq (num : Word) (k : Nat) (pos : Word) :
    hexStores n num k pos = strStores n pos (renderHex num k) := by
  induction k generalizing pos with
  | zero => rfl
  | succ k ih =>
      rw [hexStores, ih]
      rfl

/-- The digits of `%d` come from the last to the first. -/
theorem mem_decStores (k : Nat) (num pos : Word) (hroom : pos.toNat + k ≤ n.toNat)
    (e : Nat × Byte) :
    e ∈ decStores n pos k num ↔ Laid pos.toNat (decDigits k num).reverse e := by
  have hmax := n.isLt
  induction k generalizing num with
  | zero => simp [decStores, decDigits, not_laid_nil]
  | succ k ih =>
      have hplace : (pos + BitVec.ofNat 32 k).toNat = pos.toNat + k := toNat_add_ofNat (by omega)
      have hroomLast : (pos + BitVec.ofNat 32 k).toNat < n.toNat := by omega
      have hlast := mem_putStore n hroomLast (decDigit num) e
      have hrest := ih (num.sdiv 10#32) (by omega)
      rw [hplace, ← laid_singleton] at hlast
      rw [decDigits, List.reverse_cons, laid_append, List.length_reverse, length_decDigits]
      exact (List.mem_append.trans (or_congr hlast hrest)).trans Or.comm

/-- With room the NUL is stored at the position. -/
theorem mem_closeStores {pos : Word} (hroom : pos.toNat < n.toNat) (e : Nat × Byte) :
    e ∈ closeStores n pos ↔ e = (pos.toNat, 0#8) := by
  rw [closeStores, if_pos (BitVec.lt_def.mpr hroom), List.mem_singleton]

/-! No store is at the size or above. -/

/-- A byte is stored below the size only. -/
theorem putStore_lt (pos : Word) (b : Byte) : ∀ e ∈ putStore n pos b, e.1 < n.toNat := by
  intro e he
  rw [putStore] at he
  split at he
  · next hlt =>
      obtain rfl := List.mem_singleton.mp he
      exact BitVec.lt_def.mp hlt
  · cases he

/-- So is a text. -/
theorem strStores_lt (bs : List Byte) (pos : Word) :
    ∀ e ∈ strStores n pos bs, e.1 < n.toNat := by
  induction bs generalizing pos with
  | nil => exact List.forall_mem_nil _
  | cons b bs ih => exact List.forall_mem_append.mpr ⟨putStore_lt n pos b, ih _⟩

/-- So is a decimal number. -/
theorem decStores_lt (pos : Word) (k : Nat) (num : Word) :
    ∀ e ∈ decStores n pos k num, e.1 < n.toNat := by
  induction k generalizing num with
  | zero => exact List.forall_mem_nil _
  | succ k ih => exact List.forall_mem_append.mpr ⟨putStore_lt n _ _, ih _⟩

/-- So is the NUL. -/
theorem closeStores_lt (pos : Word) : ∀ e ∈ closeStores n pos, e.1 < n.toNat := by
  intro e he
  rw [closeStores] at he
  split at he
  · next hlt =>
      obtain rfl := List.mem_singleton.mp he
      exact BitVec.lt_def.mp hlt
  · split at he
    · obtain rfl := List.mem_singleton.mp he
      show (n - 1#32).toNat < n.toNat
      bv_omega
    · cases he

section Format

variable (vl : Nat → Word) (m : Mem)

/-- On any character but the `d` of a conversion the stores come in the
order of the text. -/
theorem stepStores_eq {st : Fmt} {ch : Byte} (hd : st.format = true → ch ≠ asc 'd') :
    stepStores vl m n st ch = strStores n st.sink.pos (chText vl m st ch) := by
  obtain ⟨format, l, s, j⟩ := st
  cases format with
  | false =>
      by_cases hpc : ch = asc '%'
      · subst hpc
        rfl
      · rw [chText, if_neg Bool.false_ne_true, if_neg hpc, stepStores, if_neg Bool.false_ne_true,
          if_neg hpc, strStores, strStores, List.append_nil]
  | true =>
      -- A character that is no letter of a conversion has no branch of its own.
      cases hconv : convOf ch with
      | none =>
          have hne := ne_letter_of_convOf hconv
          have hp : ch ≠ asc 'p' := hne .p
          have hx : ch ≠ asc 'x' := hne .x
          have hs : ch ≠ asc 's' := hne .s
          have hc : ch ≠ asc 'c' := hne .c
          rw [stepStores, if_pos rfl, if_neg hp, if_neg hx, if_neg (hd rfl), if_neg hs, if_neg hc,
            ite_self, chText, if_pos rfl, hconv]
          rfl
      | some k =>
          obtain rfl := eq_letter_of_convOf hconv
          have htext : chText vl m ⟨true, l, s, j⟩ k.letter = renderConv m (vl j) k := by
            rw [chText, if_pos rfl, hconv]
            rfl
          rw [htext]
          cases k with
          | d => exact absurd rfl (hd rfl)
          | p =>
              show putStore n s.pos (asc '0') ++ (putStore n (s.pos + 1#32) (asc 'x') ++
                hexStores n (vl j) 8 (s.pos + 1#32 + 1#32)) = _
              rw [hexStores_eq]
              rfl
          | x => exact hexStores_eq n (vl j) 8 s.pos
          | s => rfl
          | c => exact (List.append_nil _).symm

/-- The stores on the `d` of a conversion. -/
theorem stepStores_dec (l : Bool) (s : Sink 32 Byte) (j : Nat) :
    stepStores vl m n ⟨true, l, s, j⟩ (asc 'd')
      = if (vl j).slt 0#32 then putStore n s.pos (asc '-') ++
          decStores n (s.pos + 1#32) (digitCount 32 (-vl j)) (-vl j)
        else decStores n s.pos (digitCount 32 (vl j)) (vl j) :=
  rfl

/-- The stores on one character lay down its text. -/
theorem mem_stepStores {st : Fmt} {ch : Byte}
    (hroom : st.sink.pos.toNat + (chText vl m st ch).length ≤ n.toNat) (e : Nat × Byte) :
    e ∈ stepStores vl m n st ch ↔ Laid st.sink.pos.toNat (chText vl m st ch) e := by
  -- Only `%d` stores in another order than that of its text.
  by_cases hd : st.format = true ∧ ch = asc 'd'
  · obtain ⟨format, l, s, j⟩ := st
    obtain ⟨rfl, rfl⟩ : format = true ∧ ch = asc 'd' := hd
    have hpos : s.pos.toNat + (renderDec (vl j)).length ≤ n.toNat := hroom
    have hmax := n.isLt
    show _ ↔ Laid s.pos.toNat (renderDec (vl j)) e
    rw [stepStores_dec]
    rw [renderDec] at hpos ⊢
    by_cases hneg : (vl j).slt 0#32 = true
    · -- The sign is stored at the position, the digits from the next one on.
      rw [if_pos hneg, List.length_cons, List.length_reverse, length_decDigits] at hpos
      have hone : (s.pos + 1#32).toNat = s.pos.toNat + 1 := toNat_add_ofNat (by omega)
      rw [if_pos hneg, if_pos hneg, List.mem_append, mem_putStore n (by omega),
        mem_decStores n _ _ _ (by omega), hone, ← laid_singleton]
      exact (laid_append s.pos.toNat [asc '-'] _ e).symm
    · -- The digits alone, from the last one down.
      rw [if_neg hneg, List.length_reverse, length_decDigits] at hpos
      rw [if_neg hneg, if_neg hneg]
      exact mem_decStores n _ _ _ hpos e
  · rw [stepStores_eq n vl m fun hf hch => hd ⟨hf, hch⟩]
    exact mem_strStores n _ _ hroom e

/-- One character stores below the size only. -/
theorem stepStores_lt (st : Fmt) (ch : Byte) :
    ∀ e ∈ stepStores vl m n st ch, e.1 < n.toNat := by
  have hhex : ∀ num k pos, ∀ e ∈ hexStores n num k pos, e.1 < n.toNat := by
    intro num k pos
    rw [hexStores_eq]
    exact strStores_lt n _ pos
  -- One case for each branch of the code.
  rw [stepStores]
  split
  · split
    · exact List.forall_mem_nil _
    split
    · exact List.forall_mem_append.mpr ⟨putStore_lt n _ _,
        List.forall_mem_append.mpr ⟨putStore_lt n _ _, hhex _ _ _⟩⟩
    split
    · exact hhex _ _ _
    split
    · split
      · exact List.forall_mem_append.mpr ⟨putStore_lt n _ _, decStores_lt n _ _ _⟩
      · exact decStores_lt n _ _ _
    split
    · exact strStores_lt n _ _
    split
    · exact putStore_lt n _ _
    · exact List.forall_mem_nil _
  · split
    · exact List.forall_mem_nil _
    · exact putStore_lt n _ _

/-- The whole pass stores below the size only. -/
theorem passStores_lt (s : List Byte) (st : Fmt) :
    ∀ e ∈ passStores vl m n s st, e.1 < n.toNat := by
  induction s generalizing st with
  | nil => exact closeStores_lt n st.sink.pos
  | cons ch s ih =>
      refine List.forall_mem_append.mpr ⟨stepStores_lt n vl m st ch, ?_⟩
      cases fmtStep vl m n st ch with
      | none => exact List.forall_mem_nil _
      | some st' => exact ih st'

/-! Applied one after the other, the stores are what the pass does. -/

omit n in
/-- The first stores come first. -/
theorem applyStores_append (o : Nat → Byte) (as bs : List (Nat × Byte)) :
    applyStores o (as ++ bs) = applyStores (applyStores o as) bs :=
  List.foldl_append

omit n in
/-- The same for a buffer that may be missing. -/
theorem map_applyStores_append (out : Option (Nat → Byte)) (as bs : List (Nat × Byte)) :
    out.map (applyStores · (as ++ bs)) = (out.map (applyStores · as)).map (applyStores · bs) := by
  rw [Option.map_map]
  exact congrArg (out.map ·) (funext fun o => applyStores_append o as bs)

/-- `put` makes the store of `putStore`. -/
theorem put_out (s : Sink 32 Byte) (b : Byte) :
    (s.put n b).out = s.out.map (applyStores · (putStore n s.pos b)) := by
  rw [putStore]
  split
  · next hlt => simp only [Sink.put, if_pos hlt, applyStores, List.foldl_cons, List.foldl_nil]
  · next hlt => simp only [Sink.put, if_neg hlt, applyStores, List.foldl_nil]

/-- `emit` makes the stores of `strStores`. -/
theorem emit_out (bs : List Byte) (s : Sink 32 Byte) :
    (s.emit n bs).out = s.out.map (applyStores · (strStores n s.pos bs)) := by
  induction bs generalizing s with
  | nil => exact Option.map_id'.symm
  | cons b bs ih =>
      rw [Sink.emit_cons, ih, strStores, map_applyStores_append, put_out]
      rfl

/-- `putDec` makes the stores of `decStores`. -/
theorem putDec_out (k : Nat) (num : Word) (s : Sink 32 Byte) :
    (putDec n k num s).out = s.out.map (applyStores · (decStores n s.pos k num)) := by
  induction k generalizing num s with
  | zero => exact Option.map_id'.symm
  | succ k ih =>
      have hpoke : (s.poke n k (decDigit num)).out
          = s.out.map (applyStores · (putStore n (s.pos + BitVec.ofNat 32 k) (decDigit num))) := by
        rw [putStore]
        split
        · next hlt => simp only [Sink.poke, if_pos hlt, applyStores, List.foldl_cons, List.foldl_nil]
        · next hlt => simp only [Sink.poke, if_neg hlt, applyStores, List.foldl_nil]
      rw [putDec, ih, decStores, map_applyStores_append, hpoke]
      rfl

/-- One character makes the stores of `stepStores`. -/
theorem fmtStep_out {st st' : Fmt} {ch : Byte} (h : fmtStep vl m n st ch = some st') :
    st'.sink.out = st.sink.out.map (applyStores · (stepStores vl m n st ch)) := by
  by_cases hd : st.format = true ∧ ch = asc 'd'
  · obtain ⟨format, l, s, j⟩ := st
    obtain ⟨rfl, rfl⟩ : format = true ∧ ch = asc 'd' := hd
    obtain rfl : caseD vl n ⟨true, l, s, j⟩ = st' := Option.some.inj h
    rw [stepStores_dec, caseD]
    by_cases hneg : (vl j).slt 0#32 = true
    · simp only [if_pos hneg]
      rw [map_applyStores_append, ← put_out]
      exact putDec_out n _ _ _
    · simp only [if_neg hneg]
      exact putDec_out n _ _ _
  · rw [stepStores_eq n vl m fun hf hch => hd ⟨hf, hch⟩, fmtStep_text vl m n h]
    exact emit_out n _ st.sink

/-- The pass makes the stores of `passStores`. -/
theorem passStores_out (s : List Byte) :
    ∀ st st', fmtLoop vl m n s st = some st' →
      (st'.sink.close n 0#8).out = st.sink.out.map (applyStores · (passStores vl m n s st)) := by
  induction s with
  | nil =>
      -- At the end only the NUL is stored, when there is room for it.
      intro st st' h
      obtain rfl := Option.some.inj h
      rw [passStores, closeStores]
      split
      · next hlt => simp only [Sink.close, if_pos hlt, applyStores, List.foldl_cons, List.foldl_nil]
      · next hlt =>
          simp only [Sink.close, if_neg hlt]
          split
          · rfl
          · rfl
  | cons ch s ih =>
      intro st st' h
      -- One character, then the rest of the format from the state it leaves.
      obtain ⟨st₁, hstep, hrest⟩ : ∃ st₁, fmtStep vl m n st ch = some st₁ ∧
          fmtLoop vl m n s st₁ = some st' := Option.bind_eq_some_iff.mp h
      rw [ih st₁ st' hrest, passStores, hstep, map_applyStores_append, ← fmtStep_out n vl m hstep]

/-- The writing pass as the list of its stores is `lib_vsnprintf`. -/
theorem libVsnprintf_stores {o : Nat → Byte} {s : List Byte} {st : Fmt}
    (h : libVsnprintf vl m n (some o) s = some st) :
    st.sink.out
      = some (applyStores o (passStores vl m n s ⟨false, false, ⟨0#32, some o⟩, 0⟩)) := by
  obtain ⟨st', hloop, rfl⟩ := Option.map_eq_some_iff.mp h
  exact passStores_out n vl m s _ st' hloop

end Format

end Stores

/-! ### The text of a pass -/

section Rendering

variable (vl : Nat → Word) (m : Mem)

/-- What a pass of size `n` puts out from the state `st` on. -/
def passText (n : Word) : List Byte → Fmt → Option (List Byte)
  | [], _ => some []
  | ch :: s, st =>
      (fmtStep vl m n st ch).bind fun st' => (passText n s st').map (chText vl m st ch ++ ·)

/-- The text of the first character, and then that of the others. -/
theorem passText_cons {n : Word} {ch : Byte} {s : List Byte} {st : Fmt} {text : List Byte}
    (h : passText vl m n (ch :: s) st = some text) :
    ∃ st' rest, fmtStep vl m n st ch = some st' ∧ passText vl m n s st' = some rest ∧
      text = chText vl m st ch ++ rest := by
  obtain ⟨st', hstep, hmap⟩ := Option.bind_eq_some_iff.mp h
  obtain ⟨rest, hrest, rfl⟩ := Option.map_eq_some_iff.mp hmap
  exact ⟨st', rest, hstep, hrest, rfl⟩

/-- Where there is a text the pass emits it. -/
theorem fmtLoop_of_passText {n : Word} (s : List Byte) :
    ∀ st text, passText vl m n s st = some text →
      ∃ st', fmtLoop vl m n s st = some st' ∧ st'.sink = st.sink.emit n text := by
  induction s with
  | nil =>
      intro st text h
      obtain rfl := Option.some.inj h
      exact ⟨st, rfl, rfl⟩
  | cons ch s ih =>
      intro st text h
      obtain ⟨st', rest, hstep, hrest, rfl⟩ := passText_cons vl m h
      obtain ⟨st'', hloop, hsink⟩ := ih st' rest hrest
      refine ⟨st'', ?_, ?_⟩
      · show (fmtStep vl m n st ch).bind (fmtLoop vl m n s) = _
        rw [hstep]
        exact hloop
      · rw [hsink, fmtStep_text vl m n hstep, Sink.emit_append]

/-- The position after a text that has room. -/
theorem fmtStep_pos {n : Word} {st st' : Fmt} {ch : Byte} (hstep : fmtStep vl m n st ch = some st')
    (hroom : st.sink.pos.toNat + (chText vl m st ch).length ≤ n.toNat) :
    st'.sink.pos.toNat = st.sink.pos.toNat + (chText vl m st ch).length := by
  have hmax := n.isLt
  rw [fmtStep_text vl m n hstep, Sink.emit_pos]
  exact toNat_add_ofNat (by omega)

/-- The stores of a pass that has room for its text and a NUL. -/
theorem mem_passStores {n : Word} (s : List Byte) (e : Nat × Byte) :
    ∀ st text, passText vl m n s st = some text →
      st.sink.pos.toNat + text.length < n.toNat →
      (e ∈ passStores vl m n s st ↔ Laid st.sink.pos.toNat (text ++ [0#8]) e) := by
  induction s with
  | nil =>
      intro st text h hroom
      obtain rfl := Option.some.inj h
      rw [List.nil_append, laid_singleton]
      exact mem_closeStores n hroom e
  | cons ch s ih =>
      intro st text h hroom
      obtain ⟨st', rest, hstep, hrest, rfl⟩ := passText_cons vl m h
      rw [List.length_append] at hroom
      -- The rest of the text begins where this character's text ends.
      have hpos := fmtStep_pos vl m hstep (by omega)
      have htail := ih st' rest hrest (by omega)
      rw [hpos] at htail
      have hroomHead : st.sink.pos.toNat + (chText vl m st ch).length ≤ n.toNat := by omega
      have hhead := mem_stepStores n vl m hroomHead e
      rw [passStores, hstep, List.append_assoc, laid_append]
      exact List.mem_append.trans (or_congr hhead htail)

/-- Two passes with a buffer each that are at the same place. -/
structure SameMode (st₁ st₂ : Fmt) : Prop where
  format : st₂.format = st₁.format
  longarg : st₂.longarg = st₁.longarg
  next : st₂.next = st₁.next
  pos : st₂.sink.pos = st₁.sink.pos
  keeps₁ : st₁.sink.out.isSome = true
  keeps₂ : st₂.sink.out.isSome = true

/-- With room for its text a character takes its argument. -/
theorem argTaken_room {n : Word} {st : Fmt} {ch : Byte} (hkeeps : st.sink.out.isSome = true)
    (hroom : st.sink.pos.toNat + (chText vl m st ch).length ≤ n.toNat) :
    argTaken n st ch = if st.format then convOf ch else none := by
  rw [argTaken]
  by_cases hf : st.format = true
  · rw [if_pos hf, if_pos hf]
    cases hconv : convOf ch with
    | none => rfl
    | some k =>
        have htake : k ≠ .c ∨ st.sink.out.isSome = true ∧ st.sink.pos < n := by
          by_cases hc : k = .c
          · subst hc
            have hone : (chText vl m st ch).length = 1 := by
              rw [chText, if_pos hf, hconv]
              rfl
            exact Or.inr ⟨hkeeps, BitVec.lt_def.mpr (by omega)⟩
          · exact Or.inl hc
        rw [Option.filter_some, if_pos (decide_eq_true htake)]
  · rw [if_neg hf, if_neg hf]

/-- Two passes with room for a character go on together. -/
theorem fmtStep_room {n₁ n₂ : Word} {st₁ st₂ st₁' : Fmt} {ch : Byte} (h : SameMode st₁ st₂)
    (hstep : fmtStep vl m n₁ st₁ ch = some st₁')
    (h₁ : st₁.sink.pos.toNat + (chText vl m st₁ ch).length ≤ n₁.toNat)
    (h₂ : st₁.sink.pos.toNat + (chText vl m st₁ ch).length ≤ n₂.toNat) :
    chText vl m st₂ ch = chText vl m st₁ ch ∧
      ∃ st₂', fmtStep vl m n₂ st₂ ch = some st₂' ∧ SameMode st₁' st₂' := by
  have htext : chText vl m st₂ ch = chText vl m st₁ ch := by
    rw [chText, chText, h.format, h.next]
  have hflags : flagsAfter vl m st₂ ch = flagsAfter vl m st₁ ch := by
    rw [flagsAfter, flagsAfter, h.format, h.next, h.longarg]
  -- Both have room, so both take the argument of a `%c`.
  have harg : argTaken n₂ st₂ ch = argTaken n₁ st₁ ch := by
    have h₂' : st₂.sink.pos.toNat + (chText vl m st₂ ch).length ≤ n₂.toNat := by
      rw [htext, h.pos]
      exact h₂
    rw [argTaken_room vl m h.keeps₁ h₁, argTaken_room vl m h.keeps₂ h₂', h.format]
  rw [fmtStep_eq] at hstep
  obtain ⟨flags, hsome, rfl⟩ := Option.map_eq_some_iff.mp hstep
  have hstep₂ : fmtStep vl m n₂ st₂ ch = some ⟨flags.1, flags.2,
      st₂.sink.emit n₂ (chText vl m st₂ ch), st₂.next + (argTaken n₂ st₂ ch).toList.length⟩ := by
    rw [fmtStep_eq, hflags, hsome]
    rfl
  refine ⟨htext, _, hstep₂, rfl, rfl, ?_, ?_, ?_, ?_⟩
  · show st₂.next + (argTaken n₂ st₂ ch).toList.length = _
    rw [harg, h.next]
  · show (st₂.sink.emit n₂ (chText vl m st₂ ch)).pos = (st₁.sink.emit n₁ (chText vl m st₁ ch)).pos
    rw [Sink.emit_pos, Sink.emit_pos, htext, h.pos]
  · exact (Sink.emit_out_isSome n₁ _ st₁.sink).trans h.keeps₁
  · exact (Sink.emit_out_isSome n₂ _ st₂.sink).trans h.keeps₂

/-- A text comes out the same whatever the size, if it has room. -/
theorem passText_room {n₁ n₂ : Word} (s : List Byte) :
    ∀ st₁ st₂ text, SameMode st₁ st₂ → passText vl m n₁ s st₁ = some text →
      st₁.sink.pos.toNat + text.length ≤ n₁.toNat → st₁.sink.pos.toNat + text.length ≤ n₂.toNat →
      passText vl m n₂ s st₂ = some text := by
  induction s with
  | nil => exact fun _ _ _ _ h _ _ => h
  | cons ch s ih =>
      intro st₁ st₂ text hsame h h₁ h₂
      obtain ⟨st₁', rest, hstep, hrest, rfl⟩ := passText_cons vl m h
      rw [List.length_append] at h₁ h₂
      have hroom₂ : st₁.sink.pos.toNat + (chText vl m st₁ ch).length ≤ n₂.toNat := by omega
      obtain ⟨htext, st₂', hstep₂, hsame'⟩ := fmtStep_room vl m hsame hstep (by omega) hroom₂
      have hpos := fmtStep_pos vl m hstep (by omega)
      rw [passText, hstep₂, Option.bind_some, htext,
        ih st₁' st₂' rest hsame' hrest (by omega) (by omega)]
      rfl

end Rendering

end MiniRiscvOs.Proofs
