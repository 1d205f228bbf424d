import Mathlib.Algebra.Group.Nat.Defs
import Mathlib.Data.List.Basic
import Mathlib.Logic.Function.Basic

/-!
# `MiniRiscvOs.Lib.Sink`: output that counts and may be cut off

A `Sink` takes elements one after the other. It always counts them. It
keeps them only when it has a buffer, and then only those whose position
is below a bound. A formatter run without a buffer learns how long its
output is, and a second run with a buffer of that size keeps it.

* `Sink.emit` takes a list of elements in order.
* `Sink.poke` writes ahead of the position without moving it, so an output
  can be produced back to front. `Sink.pokeBack_eq_emit` says that the
  order does not matter.
* `Sink.emit_count` says that the position does not depend on the buffer,
  and `Sink.emit_eq` gives the buffer after an `emit` as `writeAt`.

The position has `w` bits and wraps. The elements are of any type.
-/

set_option autoImplicit false

namespace MiniRiscvOs.Lib

/-- A position and, perhaps, a buffer. -/
@[ext]
structure Sink (w : Nat) (β : Type) where
  pos : BitVec w
  out : Option (Nat → β)

/-- The buffer `o` with `bs` written from index `p` on, as far as the
indices are below `n`. -/
def writeAt {β : Type} (n : Nat) (o : Nat → β) (p : Nat) (bs : List β) : Nat → β :=
  fun i => if p ≤ i ∧ i < n then bs.getD (i - p) (o i) else o i

section WriteAt

variable {β : Type} (n : Nat) (o : Nat → β) (p : Nat)

/-- Writing no text changes nothing. -/
@[simp] theorem writeAt_nil : writeAt n o p [] = o := by
  funext i
  simp [writeAt]

/-- Writing a list is writing its head and then its tail one further on. -/
theorem writeAt_cons (b : β) (bs : List β) :
    writeAt n o p (b :: bs)
      = writeAt n (if p < n then Function.update o p b else o) (p + 1) bs := by
  funext i
  unfold writeAt
  -- First the index of the head, then those of the tail, then the ones before.
  by_cases hpi : p = i
  · subst hpi
    have hlow : ¬ (p + 1 ≤ p ∧ p < n) := by omega
    rw [if_neg hlow]
    by_cases hn : p < n
    · rw [if_pos ⟨Nat.le_refl p, hn⟩, if_pos hn, Function.update_self, Nat.sub_self]
      rfl
    · rw [if_neg (fun h => hn h.2), if_neg hn]
  · by_cases hle : p + 1 ≤ i
    · have hsub : i - p = (i - (p + 1)) + 1 := by omega
      have hold : (if p < n then Function.update o p b else o) i = o i := by
        split
        · exact Function.update_of_ne (Ne.symm hpi) ..
        · rfl
      rw [hold, hsub, List.getD_cons_succ]
      by_cases hn : i < n
      · rw [if_pos ⟨by omega, hn⟩, if_pos ⟨hle, hn⟩]
      · rw [if_neg (by omega), if_neg (by omega)]
    · have hold : (if p < n then Function.update o p b else o) i = o i := by
        split
        · exact Function.update_of_ne (Ne.symm hpi) ..
        · rfl
      rw [if_neg (by omega), if_neg (by omega), hold]

variable {n p}

/-- What was written, as far as the bound lets it. -/
theorem writeAt_inside {bs : List β} {i : Nat} (hi : i < bs.length) (hn : p + i < n) :
    writeAt n o p bs (p + i) = bs[i] := by
  rw [writeAt, if_pos ⟨by omega, hn⟩, Nat.add_sub_cancel_left]
  simp [List.getD, hi]

end WriteAt

namespace Sink

variable {w : Nat} {β : Type}

/-- Take one element: keep it if it is below the bound, and count it. -/
def put (n : BitVec w) (s : Sink w β) (b : β) : Sink w β where
  pos := s.pos + 1#w
  out := s.out.map fun o => if s.pos < n then Function.update o s.pos.toNat b else o

/-- Take the elements of a list. -/
def emit (n : BitVec w) (bs : List β) (s : Sink w β) : Sink w β := bs.foldl (put n) s

/-- Write `j` places ahead of the position. -/
def poke (n : BitVec w) (j : Nat) (b : β) (s : Sink w β) : Sink w β where
  pos := s.pos
  out := s.out.map fun o => if s.pos + BitVec.ofNat w j < n then
    Function.update o (s.pos + BitVec.ofNat w j).toNat b else o

/-- Move the position. -/
def advance (k : Nat) (s : Sink w β) : Sink w β := { s with pos := s.pos + BitVec.ofNat w k }

/-- Only count. -/
def forget (s : Sink w β) : Sink w β := { s with out := none }

/-- Close the output with `z`: behind what was taken, or in the last place
of a buffer that is too small. -/
def close (n : BitVec w) (z : β) (s : Sink w β) : Sink w β :=
  { s with out := s.out.map fun o =>
      if s.pos < n then Function.update o s.pos.toNat z
      else if n ≠ 0#w then Function.update o (n - 1#w).toNat z
      else o }

variable (n : BitVec w)

/-- Emitting nothing changes nothing. -/
@[simp] theorem emit_nil (s : Sink w β) : s.emit n [] = s := rfl

/-- The first byte is put before the others. -/
@[simp] theorem emit_cons (b : β) (bs : List β) (s : Sink w β) :
    s.emit n (b :: bs) = (s.put n b).emit n bs := rfl

/-- A concatenation is emitted part by part. -/
theorem emit_append (as bs : List β) (s : Sink w β) :
    s.emit n (as ++ bs) = (s.emit n as).emit n bs :=
  List.foldl_append

/-- The position moves by the length, whatever the buffer and the bound. -/
@[simp] theorem emit_pos (bs : List β) (s : Sink w β) :
    (s.emit n bs).pos = s.pos + BitVec.ofNat w bs.length := by
  induction bs generalizing s with
  | nil => simp
  | cons b bs ih =>
      rw [emit_cons, ih]
      show s.pos + 1#w + BitVec.ofNat w bs.length = _
      rw [List.length_cons, BitVec.add_assoc, ← BitVec.ofNat_add, Nat.add_comm]

/-- Emitting neither gains nor loses the buffer. -/
theorem emit_out_isSome (bs : List β) (s : Sink w β) :
    (s.emit n bs).out.isSome = s.out.isSome := by
  induction bs generalizing s with
  | nil => rfl
  | cons b bs ih =>
      rw [emit_cons, ih]
      simp [put]

/-- Counting goes on as if there were no buffer. -/
theorem forget_emit (m : BitVec w) (bs : List β) (s : Sink w β) :
    (s.emit n bs).forget = s.forget.emit m bs := by
  apply Sink.ext
  · show (s.emit n bs).pos = (s.forget.emit m bs).pos
    rw [emit_pos, emit_pos]
    rfl
  · have hnone := emit_out_isSome m bs s.forget
    show none = _
    cases hout : (s.forget.emit m bs).out with
    | none => rfl
    | some o =>
        rw [hout] at hnone
        simp [forget] at hnone

/-- The buffer after an `emit` that does not wrap. -/
theorem emit_eq (bs : List β) (s : Sink w β) (hfit : s.pos.toNat + bs.length < 2 ^ w) :
    s.emit n bs = ⟨s.pos + BitVec.ofNat w bs.length,
      s.out.map fun o => writeAt n.toNat o s.pos.toNat bs⟩ := by
  induction bs generalizing s with
  | nil => simp
  | cons b bs ih =>
      rw [List.length_cons] at hfit
      -- The position does not wrap here, as the whole list fits.
      have hpos : (s.put n b).pos.toNat = s.pos.toNat + 1 := by
        show (s.pos + 1#w).toNat = _
        have hone : (1#w).toNat = 1 := by
          rw [BitVec.toNat_ofNat]
          exact Nat.mod_eq_of_lt (by omega)
        rw [BitVec.toNat_add, hone]
        exact Nat.mod_eq_of_lt (by omega)
      rw [emit_cons, ih (s.put n b) (by omega), hpos]
      apply Sink.ext
      · show s.pos + 1#w + BitVec.ofNat w bs.length = _
        rw [List.length_cons, BitVec.add_assoc, ← BitVec.ofNat_add, Nat.add_comm]
      · show (s.out.map _).map _ = _
        rw [Option.map_map]
        cases s.out with
        | none => rfl
        | some o =>
            show some (writeAt n.toNat _ (s.pos.toNat + 1) bs)
              = some (writeAt n.toNat o s.pos.toNat (b :: bs))
            rw [writeAt_cons]
            rfl

/-! ### Writing back to front -/

/-- Two writes ahead at different places may be swapped. -/
theorem poke_comm {j k : Nat} (hj : j < 2 ^ w) (hk : k < 2 ^ w) (hne : j ≠ k) (a b : β)
    (s : Sink w β) : (s.poke n j a).poke n k b = (s.poke n k b).poke n j a := by
  obtain ⟨pos, out⟩ := s
  have hplace : (pos + BitVec.ofNat w j).toNat ≠ (pos + BitVec.ofNat w k).toNat := by
    intro h
    have heq := (BitVec.add_right_inj _).mp (BitVec.eq_of_toNat_eq h)
    have := congrArg BitVec.toNat heq
    rw [BitVec.toNat_ofNat, BitVec.toNat_ofNat, Nat.mod_eq_of_lt hj, Nat.mod_eq_of_lt hk] at this
    exact hne this
  cases out with
  | none => rfl
  | some o =>
      simp only [poke, Option.map_some]
      by_cases hjn : pos + BitVec.ofNat w j < n
      · by_cases hkn : pos + BitVec.ofNat w k < n
        · simp only [if_pos hjn, if_pos hkn]
          rw [Function.update_comm hplace]
        · simp only [if_pos hjn, if_neg hkn]
      · simp only [if_neg hjn]

/-- A write one place further back, seen from after the move. -/
theorem poke_advance (j k : Nat) (b : β) (s : Sink w β) :
    (s.advance k).poke n j b = (s.poke n (k + j) b).advance k := by
  have hsum : s.pos + BitVec.ofNat w k + BitVec.ofNat w j = s.pos + BitVec.ofNat w (k + j) := by
    rw [BitVec.add_assoc, ← BitVec.ofNat_add]
  simp only [poke, advance, hsum]

/-- A write at the position and a move by one are a `put`. -/
theorem put_eq_poke (b : β) (s : Sink w β) : s.put n b = (s.poke n 0 b).advance 1 := by
  have hzero : s.pos + BitVec.ofNat w 0 = s.pos := BitVec.add_zero s.pos
  simp only [put, poke, advance, hzero]

/-- Write a list ahead, last element first. -/
def pokeBack (n : BitVec w) (bs : List β) (s : Sink w β) : Sink w β :=
  match bs with
  | [] => s
  | b :: bs => (s.poke n bs.length b).pokeBack n bs

/-- A write ahead of all of them may come first or last. -/
theorem pokeBack_poke {k : Nat} (hk : k < 2 ^ w) (b : β) (bs : List β) :
    ∀ s : Sink w β, bs.length ≤ k →
      (s.poke n k b).pokeBack n bs = (s.pokeBack n bs).poke n k b := by
  induction bs with
  | nil => exact fun _ _ => rfl
  | cons c cs ih =>
      intro s hle
      rw [List.length_cons] at hle
      show ((s.poke n k b).poke n cs.length c).pokeBack n cs = _
      rw [poke_comm n hk (by omega) (by omega), ih _ (by omega)]
      rfl

/-- Writing a list back to front and then moving past it is emitting it
front to back. -/
theorem pokeBack_eq_emit (bs : List β) (hfit : bs.length < 2 ^ w) (s : Sink w β) :
    (s.pokeBack n bs).advance bs.length = s.emit n bs.reverse := by
  induction bs generalizing s with
  | nil =>
      apply Sink.ext
      · show s.pos + BitVec.ofNat w 0 = s.pos
        exact BitVec.add_zero _
      · rfl
  | cons b bs ih =>
      rw [List.length_cons] at hfit
      -- The move past the list ends with the move past its first element.
      have hmove : ∀ t : Sink w β, t.advance (bs.length + 1) = (t.advance bs.length).advance 1 := by
        intro t
        apply Sink.ext
        · show t.pos + BitVec.ofNat w (bs.length + 1) = t.pos + BitVec.ofNat w bs.length + 1#w
          rw [BitVec.ofNat_add, BitVec.add_assoc]
        · rfl
      have hlast := poke_advance n 0 bs.length b (s.pokeBack n bs)
      rw [List.reverse_cons, emit_append, ← ih (by omega)]
      show ((s.poke n bs.length b).pokeBack n bs).advance (bs.length + 1)
        = ((s.pokeBack n bs).advance bs.length).put n b
      rw [pokeBack_poke n (by omega) b bs s (Nat.le_refl _), hmove, put_eq_poke, hlast]
      rfl

end Sink

end MiniRiscvOs.Lib
