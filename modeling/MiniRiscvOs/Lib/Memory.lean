import Mathlib.Algebra.Group.Nat.Defs
import Mathlib.Logic.Function.Basic
import Mathlib.Tactic.Basic

/-!
# `MiniRiscvOs.Lib.Memory`: a byte-addressed memory with 32-bit addresses

`Mem` maps each 32-bit address to a byte. Addresses wrap, as the machine's
pointers do, and a word access touches the four bytes from its address on
in little-endian order, aligned or not.

`InRange a n x` says that `x` is one of the `n` addresses from `a` on. It
compares the wrapped distance `x - a`, so it needs no side condition on
where the range ends. `moveRange` copies a range to where it may overlap
itself, and can be taken apart at either end. The lemmas say what a store leaves alone
(`store32_of_not_inRange`, `load32_store32_of_disjoint`) and what it puts
down (`load32_store32_same`).
-/

set_option autoImplicit false

namespace MiniRiscvOs.Lib

/-- What one address holds. -/
abbrev Byte := BitVec 8

/-- A register or four bytes of memory. -/
abbrev Word := BitVec 32

/-- An address of the 32-bit machine. -/
abbrev Addr := BitVec 32

/-- `'\n'`. -/
def newline : Byte := 0x0a#8

/-- `'\r'`. -/
def carriageReturn : Byte := 0x0d#8

/-- A byte for each 32-bit address. -/
abbrev Mem := Addr → Byte

/-- `x` is one of the `n` addresses from `a` on. -/
def InRange (a : Addr) (n : Nat) (x : Addr) : Prop := (x - a).toNat < n

instance (a : Addr) (n : Nat) (x : Addr) : Decidable (InRange a n x) :=
  inferInstanceAs (Decidable (_ < _))

/-- A range and a longer one from the same address. -/
theorem InRange.mono {a x : Addr} {n m : Nat} (h : InRange a n x) (hnm : n ≤ m) :
    InRange a m x :=
  Nat.lt_of_lt_of_le h hnm

/-- An offset that does not wrap. -/
theorem toNat_add_ofNat {a : Addr} {i : Nat} (h : a.toNat + i < 2 ^ 32) :
    (a + BitVec.ofNat 32 i).toNat = a.toNat + i := by
  have hi : (BitVec.ofNat 32 i).toNat = i := Nat.mod_eq_of_lt (by omega)
  rw [BitVec.toNat_add_of_lt (by rwa [hi]), hi]

/-- The `i`-th address of a table at `a`, measured from `a`. -/
theorem toNat_add_ofNat_sub (a : Addr) {i : Nat} (hi : i < 2 ^ 32) :
    (a + BitVec.ofNat 32 i - a).toNat = i := by
  rw [BitVec.add_comm, BitVec.add_sub_cancel, BitVec.toNat_ofNat, Nat.mod_eq_of_lt hi]

/-- Two offsets below `2 ^ 32` name one address only when they are equal. -/
theorem add_ofNat_inj (a : Addr) {i j : Nat} (hi : i < 2 ^ 32) (hj : j < 2 ^ 32) :
    a + BitVec.ofNat 32 i = a + BitVec.ofNat 32 j ↔ i = j := by
  constructor
  · intro h
    have := congrArg (fun x => (x - a).toNat) h
    simpa only [toNat_add_ofNat_sub a hi, toNat_add_ofNat_sub a hj] using this
  · rintro rfl
    rfl

/-- Offsets from one base add up. -/
theorem add_ofNat_add (a : Addr) (i j : Nat) :
    a + BitVec.ofNat 32 i + BitVec.ofNat 32 j = a + BitVec.ofNat 32 (i + j) := by
  rw [BitVec.add_assoc, ← BitVec.ofNat_add]

/-- One step along a table, then `k` more. -/
theorem add_one_add_ofNat (a : Addr) (k : Nat) :
    a + 1#32 + BitVec.ofNat 32 k = a + BitVec.ofNat 32 (k + 1) := by
  rw [add_ofNat_add a 1 k, Nat.add_comm]

/-! ### Addresses in 64 bits -/

/-- An address widened by its sign still has itself in the lower half. -/
theorem setWidth_signExtend (a : Addr) : (a.signExtend 64).setWidth 32 = a := by
  apply BitVec.eq_of_getLsbD_eq
  intro i hi
  have hi' : i < 64 := by omega
  simp only [BitVec.getLsbD_setWidth, BitVec.getLsbD_signExtend, hi, hi', decide_true,
    Bool.true_and, if_true]

/-- It is an address widened by zeros where the sign bit is clear, and nowhere
else. -/
theorem signExtend_eq_setWidth_iff (a b : Addr) :
    a.signExtend 64 = b.setWidth 64 ↔ a = b ∧ a.toNat < 2 ^ 31 := by
  constructor
  · intro h
    have hab : a = b := by
      have hlow := congrArg (BitVec.setWidth 32) h
      rwa [setWidth_signExtend, BitVec.setWidth_setWidth_of_le b (by decide),
        BitVec.setWidth_eq] at hlow
    refine ⟨hab, ?_⟩
    by_contra hge
    have hmsb : a.msb = true := BitVec.msb_eq_true_iff_two_mul_ge.mpr (by omega)
    have hnat := congrArg BitVec.toNat h
    -- The sign adds the upper half, and `b` has none.
    rw [BitVec.toNat_signExtend, hmsb, if_pos rfl, hab, BitVec.toNat_setWidth] at hnat
    omega
  · rintro ⟨rfl, hlt⟩
    have hmsb : a.msb = false := BitVec.msb_eq_false_iff_two_mul_lt.mpr (by omega)
    exact BitVec.signExtend_eq_setWidth_of_msb_false hmsb

/-- Offset zero is the address itself. -/
theorem add_ofNat_zero (a : Addr) : a + BitVec.ofNat 32 0 = a :=
  BitVec.add_zero a

/-- Every address is at some offset from `a`. -/
theorem exists_offset (a x : Addr) : ∃ i < 2 ^ 32, x = a + BitVec.ofNat 32 i := by
  refine ⟨(x - a).toNat, (x - a).isLt, ?_⟩
  rw [BitVec.ofNat_toNat, BitVec.setWidth_eq, BitVec.add_comm, BitVec.sub_add_cancel]

/-- An offset from the start lies in the range exactly when it is below the
size. -/
@[simp] theorem inRange_add_ofNat (a : Addr) {n i : Nat} (hi : i < 2 ^ 32) :
    InRange a n (a + BitVec.ofNat 32 i) ↔ i < n := by
  rw [InRange, toNat_add_ofNat_sub a hi]

/-- One more address at the front of a range. -/
theorem inRange_succ {a x : Addr} {n : Nat} (hn : n < 2 ^ 32) :
    InRange a (n + 1) x ↔ x = a ∨ InRange (a + 1#32) n x := by
  unfold InRange
  bv_omega

/-- One more address at the end of a range. -/
theorem inRange_succ_last {a x : Addr} {n : Nat} (hn : n < 2 ^ 32) :
    InRange a (n + 1) x ↔ InRange a n x ∨ x = a + BitVec.ofNat 32 n := by
  unfold InRange
  bv_omega

/-- The empty range has no address. -/
theorem not_inRange_zero (a x : Addr) : ¬ InRange a 0 x :=
  Nat.not_lt_zero _

/-- One byte of memory overwritten. -/
def store8 (m : Mem) (a : Addr) (v : Byte) : Mem := Function.update m a v

/-- The stored byte is read back. -/
@[simp] theorem store8_same (m : Mem) (a : Addr) (v : Byte) : store8 m a v a = v :=
  Function.update_self ..

/-- Every other byte is as before. -/
theorem store8_of_ne (m : Mem) {a x : Addr} (v : Byte) (h : x ≠ a) :
    store8 m a v x = m x :=
  Function.update_of_ne h ..

/-- Each of the `n` bytes from `a` on replaced by its image under `f`. -/
def mapRange (f : Byte → Byte) (m : Mem) (a : Addr) (n : Nat) : Mem :=
  fun x => if InRange a n x then f (m x) else m x

/-- Over the empty range nothing changes. -/
@[simp] theorem mapRange_zero (f : Byte → Byte) (m : Mem) (a : Addr) :
    mapRange f m a 0 = m := by
  funext x
  exact if_neg (not_inRange_zero a x)

/-- The first byte first, then the rest: how a loop over the bytes runs. -/
theorem mapRange_store8 (f : Byte → Byte) (m : Mem) (a : Addr) {n : Nat}
    (hn : n < 2 ^ 32) :
    mapRange f (store8 m a (f (m a))) (a + 1#32) n = mapRange f m a (n + 1) := by
  have ha : ¬ InRange (a + 1#32) n a := by
    unfold InRange
    bv_omega
  funext x
  unfold mapRange
  by_cases hx : x = a
  · subst hx
    rw [if_neg ha, store8_same, if_pos ((inRange_succ hn).mpr (Or.inl rfl))]
  · rw [store8_of_ne m _ hx]
    simp only [inRange_succ hn, hx, false_or]

/-- The `n` bytes from `s` on, all at once, put down from `d` on. -/
def moveRange (m : Mem) (d s : Addr) (n : Nat) : Mem :=
  fun x => if InRange d n x then m (s + (x - d)) else m x

/-- Moving no bytes changes nothing. -/
@[simp] theorem moveRange_zero (m : Mem) (d s : Addr) : moveRange m d s 0 = m := by
  funext x
  exact if_neg (not_inRange_zero d x)

/-- Each byte of the destination is the byte the source had there before. -/
theorem moveRange_inside (m : Mem) (d s : Addr) {n i : Nat} (hi : i < n) (hn : n ≤ 2 ^ 32) :
    moveRange m d s n (d + BitVec.ofNat 32 i) = m (s + BitVec.ofNat 32 i) := by
  have hlt : i < 2 ^ 32 := Nat.lt_of_lt_of_le hi hn
  have hoff : d + BitVec.ofNat 32 i - d = BitVec.ofNat 32 i := by
    rw [BitVec.add_comm, BitVec.add_sub_cancel]
  rw [moveRange, if_pos ((inRange_add_ofNat d hlt).mpr hi), hoff]

/-- Outside the destination nothing changes. -/
theorem moveRange_outside (m : Mem) {d x : Addr} (s : Addr) {n : Nat} (h : ¬ InRange d n x) :
    moveRange m d s n x = m x :=
  if_neg h

/-- The first byte first, then the rest, if the first byte put down is none
of the rest to be read. -/
theorem moveRange_front (m : Mem) (d s : Addr) {n : Nat} (hn : n < 2 ^ 32)
    (h : ∀ i, 0 < i → i ≤ n → s + BitVec.ofNat 32 i ≠ d) :
    moveRange (store8 m d (m s)) (d + 1#32) (s + 1#32) n = moveRange m d s (n + 1) := by
  funext x
  unfold moveRange
  by_cases hx : x = d
  · subst hx
    -- The first byte is none of the others, and none is stored over it.
    have hself : ¬ InRange (x + 1#32) n x := by
      unfold InRange
      bv_omega
    have hzero : s + (x - x) = s := by bv_omega
    rw [if_neg hself, store8_same, if_pos ((inRange_succ hn).mpr (Or.inl rfl)), hzero]
  · by_cases hin : InRange (d + 1#32) n x
    · have hplace : s + 1#32 + (x - (d + 1#32)) = s + (x - d) := by bv_omega
      have hread : s + (x - d) ≠ d := by
        have hoff := h (x - d).toNat
        rw [BitVec.ofNat_toNat, BitVec.setWidth_eq] at hoff
        unfold InRange at hin
        exact hoff (by bv_omega) (by bv_omega)
      rw [if_pos hin, if_pos ((inRange_succ hn).mpr (Or.inr hin)), hplace, store8_of_ne m _ hread]
    · -- Outside of the destination both sides are the old memory.
      have hout : ¬ InRange d (n + 1) x := by
        rw [inRange_succ hn]
        exact fun hor => hor.elim hx hin
      rw [if_neg hin, if_neg hout, store8_of_ne m _ hx]

/-- The last byte first, then the rest, if the first byte put down is none
of the rest to be read. -/
theorem moveRange_back (m : Mem) (d s : Addr) {n : Nat} (hn : n < 2 ^ 32)
    (h : ∀ i, i < n → s + BitVec.ofNat 32 i ≠ d + BitVec.ofNat 32 n) :
    moveRange (store8 m (d + BitVec.ofNat 32 n) (m (s + BitVec.ofNat 32 n))) d s n
      = moveRange m d s (n + 1) := by
  funext x
  unfold moveRange
  by_cases hx : x = d + BitVec.ofNat 32 n
  · subst hx
    -- The last byte is none of the others, and none is stored over it.
    have hself : ¬ InRange d n (d + BitVec.ofNat 32 n) := by
      rw [inRange_add_ofNat d hn]
      exact Nat.lt_irrefl n
    have hoff : d + BitVec.ofNat 32 n - d = BitVec.ofNat 32 n := by
      rw [BitVec.add_comm, BitVec.add_sub_cancel]
    rw [if_neg hself, store8_same, if_pos ((inRange_succ_last hn).mpr (Or.inr rfl)), hoff]
  · by_cases hin : InRange d n x
    · have hread : s + (x - d) ≠ d + BitVec.ofNat 32 n := by
        have hoff := h (x - d).toNat hin
        rwa [BitVec.ofNat_toNat, BitVec.setWidth_eq] at hoff
      rw [if_pos hin, if_pos ((inRange_succ_last hn).mpr (Or.inl hin)), store8_of_ne m _ hread]
    · -- Outside of the destination both sides are the old memory.
      have hout : ¬ InRange d (n + 1) x := by
        rw [inRange_succ_last hn]
        exact fun hor => hor.elim hin hx
      rw [if_neg hin, if_neg hout, store8_of_ne m _ hx]

/-- The `k`-th byte of a word, least significant first. -/
def byteOf (w : Word) (k : Nat) : Byte := w.extractLsb' (8 * k) 8

/-- Four bytes of memory overwritten with a word, little-endian. -/
def store32 (m : Mem) (a : Addr) (w : Word) : Mem :=
  fun x => if (x - a).toNat < 4 then byteOf w (x - a).toNat else m x

/-- The word in the four bytes from `a` on. -/
def load32 (m : Mem) (a : Addr) : Word :=
  m (a + 3#32) ++ m (a + 2#32) ++ m (a + 1#32) ++ m a

/-- A word store changes no byte outside its four. -/
theorem store32_of_not_inRange (m : Mem) {a x : Addr} (w : Word) (h : ¬ InRange a 4 x) :
    store32 m a w x = m x :=
  if_neg h

/-- Each of the four bytes is its part of the word. -/
theorem store32_add_ofNat (m : Mem) (a : Addr) (w : Word) {k : Nat} (hk : k < 4) :
    store32 m a w (a + BitVec.ofNat 32 k) = byteOf w k := by
  rw [store32, toNat_add_ofNat_sub a (by omega), if_pos hk]

/-- The four bytes of a word, put back together. -/
theorem byteOf_append (w : Word) :
    byteOf w 3 ++ byteOf w 2 ++ byteOf w 1 ++ byteOf w 0 = w := by
  ext i hi
  have hw : w[i] = w.getLsbD i := (BitVec.getLsbD_eq_getElem hi).symm
  simp only [byteOf, BitVec.getElem_append, BitVec.getElem_extractLsb', hw]
  split
  · simp
  · split
    · congr 1
      omega
    · split <;> congr 1 <;> omega

/-- A word reads back as it was stored. -/
@[simp] theorem load32_store32_same (m : Mem) (a : Addr) (w : Word) :
    load32 (store32 m a w) a = w := by
  have h0 : store32 m a w a = byteOf w 0 := by
    simpa using store32_add_ofNat m a w (k := 0) (by decide)
  have h1 : store32 m a w (a + 1#32) = byteOf w 1 :=
    store32_add_ofNat m a w (k := 1) (by decide)
  have h2 : store32 m a w (a + 2#32) = byteOf w 2 :=
    store32_add_ofNat m a w (k := 2) (by decide)
  have h3 : store32 m a w (a + 3#32) = byteOf w 3 :=
    store32_add_ofNat m a w (k := 3) (by decide)
  rw [load32, h0, h1, h2, h3, byteOf_append]

/-- Two memories that agree on the four bytes from `a` on hold the same
word there. -/
theorem load32_congr {m m' : Mem} {a : Addr} (h : ∀ x, InRange a 4 x → m x = m' x) :
    load32 m a = load32 m' a := by
  have hk : ∀ k < 4, m (a + BitVec.ofNat 32 k) = m' (a + BitVec.ofNat 32 k) :=
    fun k hk => h _ ((inRange_add_ofNat a (by omega)).mpr hk)
  have h0 := hk 0 (by decide)
  rw [BitVec.add_zero] at h0
  unfold load32
  rw [h0, hk 1 (by decide), hk 2 (by decide), hk 3 (by decide)]

/-- A store keeps the words it does not overlap. -/
theorem load32_store32_of_disjoint (m : Mem) {a b : Addr} (w : Word)
    (h : ∀ x, InRange b 4 x → ¬ InRange a 4 x) :
    load32 (store32 m a w) b = load32 m b :=
  load32_congr fun x hx => store32_of_not_inRange m w (h x hx)

/-- Words at offsets four or more apart do not overlap. -/
theorem not_inRange_of_offset {a x : Addr} {i j : Nat} (hi : i + 4 ≤ 2 ^ 32)
    (hj : j + 4 ≤ 2 ^ 32) (hij : i + 4 ≤ j ∨ j + 4 ≤ i)
    (hx : InRange (a + BitVec.ofNat 32 i) 4 x) : ¬ InRange (a + BitVec.ofNat 32 j) 4 x := by
  unfold InRange at *
  bv_omega

/-- A store to the next word keeps a word. -/
theorem load32_store32_next (m : Mem) (a : Addr) (w : Word) :
    load32 (store32 m (a + BitVec.ofNat 32 4) w) a = load32 m a := by
  refine load32_store32_of_disjoint m w fun x hx => ?_
  rw [← add_ofNat_zero a] at hx
  exact not_inRange_of_offset (by decide) (by decide) (Or.inl (by decide)) hx

/-- The `n` addresses from `a` on and the `m` addresses from `b` on have
none in common. -/
def Apart (a : Addr) (n : Nat) (b : Addr) (m : Nat) : Prop :=
  n ≤ (b - a).toNat ∧ m ≤ (a - b).toNat

instance (a : Addr) (n : Nat) (b : Addr) (m : Nat) : Decidable (Apart a n b m) :=
  inferInstanceAs (Decidable (_ ∧ _))

/-- Being apart is symmetric. -/
theorem Apart.symm {a b : Addr} {n m : Nat} (h : Apart a n b m) : Apart b m a n :=
  ⟨h.2, h.1⟩

/-- An address of one range lies outside a range apart from it. -/
theorem Apart.not_inRange {a b x : Addr} {n m : Nat} (h : Apart a n b m) (hx : InRange a n x) :
    ¬ InRange b m x := by
  unfold Apart InRange at *
  bv_omega

/-- Two regions of a layout. -/
theorem apart_of_layout {rs : List (Addr × Nat)}
    (h : rs.Pairwise fun p q => Apart p.1 p.2 q.1 q.2) (i j : Nat) (hij : i < j)
    (hj : j < rs.length) : Apart rs[i].1 rs[i].2 rs[j].1 rs[j].2 :=
  List.pairwise_iff_getElem.mp h i j (Nat.lt_trans hij hj) hj hij

/-- Apart from a range, apart from each piece of it. -/
theorem Apart.sub {a b : Addr} {n m i k : Nat} (h : Apart a n b m) (hk : 0 < k) (hi : i + k ≤ m)
    (hm : m ≤ 2 ^ 32) : Apart a n (b + BitVec.ofNat 32 i) k := by
  unfold Apart at *
  bv_omega

/-- Two pieces of one range. -/
theorem apart_of_offset (a : Addr) {i j n : Nat} (hi : i + n ≤ 2 ^ 32) (hj : j + n ≤ 2 ^ 32)
    (hij : i + n ≤ j ∨ j + n ≤ i) :
    Apart (a + BitVec.ofNat 32 i) n (a + BitVec.ofNat 32 j) n := by
  unfold Apart
  bv_omega

/-- A range inside of a larger one. -/
theorem inRange_of_add {a x : Addr} {i n size : Nat} (hi : i + n ≤ size) (hsize : size ≤ 2 ^ 32)
    (hx : InRange (a + BitVec.ofNat 32 i) n x) : InRange a size x := by
  unfold InRange at *
  bv_omega

end MiniRiscvOs.Lib
