import Mathlib.Data.BitVec
import Mathlib.Logic.Function.Basic

/-!
# `MiniRiscvOs.Lib.Ring`: a ring with free-running indices

A producer and a consumer share a ring of `n` slots. Each has a counter of
`w` bits that wraps, and entry `i` is in the slot `i % n`. Neither counter is
ever reduced modulo `n`, so an empty ring and a full one look different.

`entries n ring head tail` is the list of what lies between the consumer's
`head` and the producer's `tail`. Two facts about the sizes make it a queue:
`n` divides `2 ^ w`, so the slot after the last index is the slot after `n -
1`, and `n < 2 ^ w`, so a full ring still has different indices. Then a
producer that keeps to `n` entries appends (`entries_push`), and a consumer
takes the first (`entries_pop`), also where a counter wraps.
-/

set_option autoImplicit false

namespace MiniRiscvOs.Lib.Ring

universe u

variable {α : Type u} {w n : Nat}

/-- The slot of the entry with this index. -/
def slot (n : Nat) (i : BitVec w) : Nat := i.toNat % n

/-- The number of entries from `head` up to `tail`. -/
def size (head tail : BitVec w) : Nat := (tail - head).toNat

/-- The entries from `head` up to `tail`, in order. -/
def entries (n : Nat) (ring : Nat → α) (head tail : BitVec w) : List α :=
  (List.range (size head tail)).map fun p => ring (slot n (head + BitVec.ofNat w p))

/-! ### Indices -/

/-- A ring whose indices agree has no entries. -/
@[simp] theorem size_self (i : BitVec w) : size i i = 0 := by
  simp [size]

/-- The ring is empty exactly when its indices agree. -/
theorem size_eq_zero_iff (head tail : BitVec w) : size head tail = 0 ↔ head = tail := by
  constructor
  · intro h
    have hsub : tail - head = 0#w := BitVec.eq_of_toNat_eq (by simpa [size] using h)
    have hadd : tail - head + head = tail := BitVec.sub_add_cancel tail head
    rw [hsub, BitVec.zero_add] at hadd
    exact hadd
  · rintro rfl
    exact size_self head

/-- The producer goes one on. -/
theorem size_push {head tail : BitVec w} (h : size head tail + 1 < 2 ^ w) :
    size head (tail + 1#w) = size head tail + 1 := by
  have hsub : tail + 1#w - head = (tail - head) + 1#w := by
    rw [BitVec.sub_eq_add_neg, BitVec.sub_eq_add_neg, BitVec.add_assoc,
      BitVec.add_comm 1#w, BitVec.add_assoc]
  have hone : 1 % 2 ^ w = 1 := Nat.mod_eq_of_lt (by omega)
  rw [size, hsub, BitVec.toNat_add, BitVec.toNat_ofNat, hone]
  exact Nat.mod_eq_of_lt h

/-- The consumer goes one on. -/
theorem size_pop {head tail : BitVec w} (h : head ≠ tail) :
    size head tail = size (head + 1#w) tail + 1 := by
  have hpos : size head tail ≠ 0 := fun hzero => h ((size_eq_zero_iff head tail).mp hzero)
  have hlt : size head tail < 2 ^ w := (tail - head).isLt
  have hback : tail - head = tail - (head + 1#w) + 1#w := by
    rw [← BitVec.sub_sub, BitVec.sub_add_cancel]
  have hone : 1 % 2 ^ w = 1 := Nat.mod_eq_of_lt (by omega)
  have hcount : size head tail = (size (head + 1#w) tail + 1) % 2 ^ w := by
    rw [size, hback, BitVec.toNat_add, BitVec.toNat_ofNat, hone]
    rfl
  have hlt' : size (head + 1#w) tail < 2 ^ w := (tail - (head + 1#w)).isLt
  -- A sum that wrapped would be zero.
  rcases Nat.lt_or_ge (size (head + 1#w) tail + 1) (2 ^ w) with hsmall | hbig
  · rwa [Nat.mod_eq_of_lt hsmall] at hcount
  · have hfull : size (head + 1#w) tail + 1 = 2 ^ w := by omega
    rw [hfull, Nat.mod_self] at hcount
    exact absurd hcount hpos

/-! ### Slots -/

/-- The slot `p` places on. The index may wrap on the way, the slots go on
in turn. -/
theorem slot_add (hdvd : n ∣ 2 ^ w) (i : BitVec w) (p : Nat) :
    slot n (i + BitVec.ofNat w p) = (i.toNat + p) % n := by
  rw [slot, BitVec.toNat_add, BitVec.toNat_ofNat, Nat.mod_mod_of_dvd _ hdvd, Nat.add_mod,
    Nat.mod_mod_of_dvd _ hdvd, ← Nat.add_mod]

/-- Places less than a round apart are different slots. -/
theorem slot_add_inj (hdvd : n ∣ 2 ^ w) (i : BitVec w) {p q : Nat} (hp : p < n) (hq : q < n)
    (h : slot n (i + BitVec.ofNat w p) = slot n (i + BitVec.ofNat w q)) : p = q := by
  rw [slot_add hdvd, slot_add hdvd] at h
  have hmod : p ≡ q [MOD n] := Nat.ModEq.add_left_cancel' i.toNat h
  rwa [Nat.ModEq, Nat.mod_eq_of_lt hp, Nat.mod_eq_of_lt hq] at hmod

/-- The index `size head tail` places after `head` is `tail`. -/
theorem add_size (head tail : BitVec w) : head + BitVec.ofNat w (size head tail) = tail := by
  rw [size, BitVec.ofNat_toNat, BitVec.setWidth_eq, BitVec.add_comm, BitVec.sub_add_cancel]

/-! ### Entries -/

/-- There are as many entries as the size says. -/
@[simp] theorem entries_length (ring : Nat → α) (head tail : BitVec w) :
    (entries n ring head tail).length = size head tail := by
  simp [entries]

/-- The consumer takes the first entry. -/
theorem entries_pop (ring : Nat → α) {head tail : BitVec w} (h : head ≠ tail) :
    entries n ring head tail = ring (slot n head) :: entries n ring (head + 1#w) tail := by
  rw [entries, size_pop h, List.range_succ_eq_map, List.map_cons, List.map_map, entries]
  congr 1
  · simp
  · apply List.map_congr_left
    intro p _
    show ring (slot n (head + BitVec.ofNat w (p + 1))) = _
    rw [BitVec.add_assoc, ← BitVec.ofNat_add, Nat.add_comm]

/-- A store to the producer's slot changes no entry of a ring that is not
full. -/
theorem entries_update (hdvd : n ∣ 2 ^ w) (ring : Nat → α) {head tail : BitVec w}
    (hroom : size head tail < n) (x : α) :
    entries n (Function.update ring (slot n tail) x) head tail = entries n ring head tail := by
  apply List.map_congr_left
  intro p hp
  have hlt : p < size head tail := List.mem_range.mp hp
  refine Function.update_of_ne (fun heq => ?_) x ring
  -- The producer's slot is `size` places on, which is less than a round.
  rw [← add_size head tail] at heq
  have hpq : p = size head tail := slot_add_inj hdvd head (by omega) hroom heq
  omega

/-- The producer goes one on over what its slot holds. -/
theorem entries_snoc (ring : Nat → α) {head tail : BitVec w} (h : size head tail + 1 < 2 ^ w) :
    entries n ring head (tail + 1#w) = entries n ring head tail ++ [ring (slot n tail)] := by
  rw [entries, size_push h, List.range_succ, List.map_append, List.map_singleton, add_size,
    entries]

/-- The producer fills its slot and goes one on. -/
theorem entries_push (hdvd : n ∣ 2 ^ w) (hn : n < 2 ^ w) (ring : Nat → α)
    {head tail : BitVec w} (hroom : size head tail < n) (x : α) :
    entries n (Function.update ring (slot n tail) x) head (tail + 1#w)
      = entries n ring head tail ++ [x] := by
  rw [entries_snoc _ (by omega), entries_update hdvd ring hroom, Function.update_self]

end MiniRiscvOs.Lib.Ring
