import MiniRiscvOs.Lib.Memory

/-!
# `MiniRiscvOs.Kernel.StringMove`: `memset`, `memmove` and `memcpy` of `string.c`

`memmove` copies from the last byte to the first when the source begins
below the destination and reaches into it, and from the first to the last
otherwise. `memcpy` is `memmove`. Pointers have 32 bits and are compared
as unsigned numbers. `n` is unsigned, and both loops turn `n` times.

`memset` fills a range with the low byte of its second argument. Its index
is an `int` that is compared with the unsigned `n`, so the model lets it wrap.
-/

set_option autoImplicit false

namespace MiniRiscvOs.Kernel

open MiniRiscvOs.Lib

/-- `while (n-- > 0) *--d = *--s;` -/
def moveDown : Nat → Mem → Addr → Addr → Mem
  | 0, m, _, _ => m
  | n + 1, m, d, s => moveDown n (store8 m (d - 1#32) (m (s - 1#32))) (d - 1#32) (s - 1#32)

/-- `while (n-- > 0) *d++ = *s++;` -/
def moveUp : Nat → Mem → Addr → Addr → Mem
  | 0, m, _, _ => m
  | n + 1, m, d, s => moveUp n (store8 m d (m s)) (d + 1#32) (s + 1#32)

/-- `memmove`: the memory after it, and what it returns. -/
def memmove (m : Mem) (dst src : Addr) (n : Word) : Mem × Addr :=
  let s := src
  let d := dst
  if s < d ∧ s + n > d then (moveDown n.toNat m (d + n) (s + n), dst)
  else (moveUp n.toNat m d s, dst)

/-- `memcpy`. -/
def memcpy (m : Mem) (dst src : Addr) (n : Word) : Mem × Addr := memmove m dst src n

/-- The loop of `memset` at index `i`, with `k` more turns. -/
def memsetLoop (cdst : Addr) (c : Byte) : Nat → Word → Mem → Mem
  | 0, _, m => m
  | k + 1, i, m => memsetLoop cdst c k (i + 1#32) (store8 m (cdst + i) c)

/-- `memset`: the memory after it, and what it returns. -/
def memset (m : Mem) (dst : Addr) (c n : Word) : Mem × Addr :=
  (memsetLoop dst (c.setWidth 8) n.toNat 0#32 m, dst)

end MiniRiscvOs.Kernel
