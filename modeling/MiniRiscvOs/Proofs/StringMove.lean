import MiniRiscvOs.Kernel.StringMove

/-!
# `MiniRiscvOs.Proofs.StringMove`: `memmove` copies all at once

A loop that goes up is the copy of the whole range if no byte is put down
where a later one is still to be read, and likewise one that goes down.
The test of `memmove` picks a direction for which this holds, as long as
neither range goes past the end of the address space.
-/

set_option autoImplicit false

namespace MiniRiscvOs.Proofs

open MiniRiscvOs.Lib
open MiniRiscvOs.Kernel

/-- Going up, no byte is put down where a later one is to be read. -/
theorem moveUp_eq (n : Nat) :
    ∀ (m : Mem) (d s : Addr), n ≤ 2 ^ 32 →
      (∀ i j, j < i → i < n → s + BitVec.ofNat 32 i ≠ d + BitVec.ofNat 32 j) →
      moveUp n m d s = moveRange m d s n := by
  induction n with
  | zero =>
      intro m d s _ _
      rw [moveRange_zero]
      rfl
  | succ n ih =>
      intro m d s hn h
      have hrest : ∀ i j, j < i → i < n →
          s + 1#32 + BitVec.ofNat 32 i ≠ d + 1#32 + BitVec.ofNat 32 j := by
        -- The rest of the loop, with both pointers moved on by one.
        intro i j hji hi
        rw [add_one_add_ofNat, add_one_add_ofNat]
        exact h (i + 1) (j + 1) (by omega) (by omega)
      -- Its bytes do not lie where the first byte goes.
      have hfirst : ∀ i, 0 < i → i ≤ n → s + BitVec.ofNat 32 i ≠ d := by
        intro i hpos hi
        have hne := h i 0 hpos (by omega)
        rwa [add_ofNat_zero] at hne
      rw [moveUp, ih _ _ _ (by omega) hrest, moveRange_front m d s (by omega) hfirst]

/-- Going down, no byte is put down where an earlier one is to be read. -/
theorem moveDown_eq (n : Nat) :
    ∀ (m : Mem) (d s : Addr), n ≤ 2 ^ 32 →
      (∀ i j, i < j → j < n → s + BitVec.ofNat 32 i ≠ d + BitVec.ofNat 32 j) →
      moveDown n m (d + BitVec.ofNat 32 n) (s + BitVec.ofNat 32 n) = moveRange m d s n := by
  induction n with
  | zero =>
      intro m d s _ _
      rw [moveRange_zero]
      rfl
  | succ n ih =>
      intro m d s hn h
      have hback : ∀ a : Addr, a + BitVec.ofNat 32 (n + 1) - 1#32 = a + BitVec.ofNat 32 n := by
        intro a
        rw [BitVec.ofNat_add, ← BitVec.add_assoc, BitVec.add_sub_cancel]
      rw [moveDown, hback, hback,
        ih _ d s (by omega) (fun i j hij hj => h i j hij (by omega)),
        moveRange_back m d s (by omega) (fun i hi => h i n hi (by omega))]

/-- `memmove` is the copy of the whole range. -/
theorem memmove_eq (m : Mem) (dst src : Addr) (n : Word) (hdst : dst.toNat + n.toNat ≤ 2 ^ 32)
    (hsrc : src.toNat + n.toNat ≤ 2 ^ 32) :
    memmove m dst src n = (moveRange m dst src n.toNat, dst) := by
  have hn : n.toNat ≤ 2 ^ 32 := by omega
  have hend : BitVec.ofNat 32 n.toNat = n := by
    rw [BitVec.ofNat_toNat, BitVec.setWidth_eq]
  unfold memmove
  by_cases hdown : src < dst ∧ src + n > dst
  · -- The source is below the destination, so byte `i` is below byte `j` for `i < j`.
    have hlt : src.toNat < dst.toNat := BitVec.lt_def.mp hdown.1
    have hkeep := moveDown_eq n.toNat m dst src hn (fun i j hij hj heq => by
      have hnat := congrArg BitVec.toNat heq
      rw [toNat_add_ofNat (by omega), toNat_add_ofNat (by omega)] at hnat
      omega)
    rw [hend] at hkeep
    show (if src < dst ∧ src + n > dst then _ else _ : Mem × Addr) = _
    rw [if_pos hdown, hkeep]
  · show (if src < dst ∧ src + n > dst then _ else _ : Mem × Addr) = _
    rw [if_neg hdown]
    have hkeep := moveUp_eq n.toNat m dst src hn (fun i j hji hi heq => by
      have hnat := congrArg BitVec.toNat heq
      rw [toNat_add_ofNat (by omega), toNat_add_ofNat (by omega)] at hnat
      -- So the source begins below the destination and reaches into it.
      have hlt : src.toNat < dst.toNat := by omega
      have hsum : (src + n).toNat = src.toNat + n.toNat := BitVec.toNat_add_of_lt (by omega)
      have hover : dst.toNat < (src + n).toNat := by omega
      exact hdown ⟨BitVec.lt_def.mpr hlt, BitVec.lt_def.mpr hover⟩)
    rw [hkeep]

/-- After `memmove`, and after `memcpy`, the bytes at the destination are
those that were at the source, all others are as before, and the
destination is returned. -/
theorem memmove_simultaneous (m : Mem) (dst src : Addr) (n : Word)
    (hdst : dst.toNat + n.toNat ≤ 2 ^ 32) (hsrc : src.toNat + n.toNat ≤ 2 ^ 32) :
    (∀ i, i < n.toNat →
      (memmove m dst src n).1 (dst + BitVec.ofNat 32 i) = m (src + BitVec.ofNat 32 i)) ∧
    (∀ x, ¬ InRange dst n.toNat x → (memmove m dst src n).1 x = m x) ∧
    (memmove m dst src n).2 = dst ∧
    memcpy m dst src n = memmove m dst src n := by
  rw [memmove_eq m dst src n hdst hsrc]
  refine ⟨fun i hi => moveRange_inside m dst src hi (by omega), ?_, rfl, ?_⟩
  · exact fun x hx => moveRange_outside m src hx
  · exact memmove_eq m dst src n hdst hsrc

/-- Eight bytes moved three up, at the end of the address space. -/
theorem memmove_simultaneous_top :
    (∀ i, i < 8 →
      (memmove (fun a => a.setWidth 8) 0xfffffff8#32 0xfffffff5#32 8#32).1
        (0xfffffff8#32 + BitVec.ofNat 32 i) = (0xfffffff5#32 + BitVec.ofNat 32 i).setWidth 8) ∧
    (∀ x, ¬ InRange 0xfffffff8#32 8 x →
      (memmove (fun a => a.setWidth 8) 0xfffffff8#32 0xfffffff5#32 8#32).1 x = x.setWidth 8) ∧
    (memmove (fun a => a.setWidth 8) 0xfffffff8#32 0xfffffff5#32 8#32).2 = 0xfffffff8#32 ∧
    memcpy (fun a => a.setWidth 8) 0xfffffff8#32 0xfffffff5#32 8#32
      = memmove (fun a => a.setWidth 8) 0xfffffff8#32 0xfffffff5#32 8#32 :=
  memmove_simultaneous (fun a => a.setWidth 8) 0xfffffff8#32 0xfffffff5#32 8#32 (by decide)
    (by decide)

end MiniRiscvOs.Proofs
