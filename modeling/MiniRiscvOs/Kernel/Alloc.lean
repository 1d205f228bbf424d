import MiniRiscvOs.Lib.Memory

/-!
# `MiniRiscvOs.Kernel.Alloc`: the page allocator of `alloc.c`

The pool is `_num_pages` pages of 256 bytes. Each page has a one-byte
descriptor in a table at `HEAP_START`, and the table is all the allocator
remembers: bit 0 says that the page is taken, bit 1 that it is the last
page of its block.

The descriptors live in the byte memory at the addresses the C pointers
have, so a walk that leaves the table reads and writes whatever lies
there. A loop over a counter is a recursion on the iterations left. The
walk of `free` has no counter. It takes fuel, and `free` gives it one step
more than there are addresses. The texts that `page_init` prints are left
out.
-/

set_option autoImplicit false

namespace MiniRiscvOs.Kernel

open MiniRiscvOs.Lib

/-- Where the linker script puts the heap: from the end of `.bss` to the
end of the 128 MiB of RAM, with room for the 2048 reserved pages. -/
structure HeapLayout where
  heapStart : Addr
  heapSize : Word
  ram_le : 0x80000000 ≤ heapStart.toNat
  end_eq : heapStart.toNat + heapSize.toNat = 0x88000000
  reserve_le : 2048 * 256 ≤ heapSize.toNat

/-- The memory and the static variables of `alloc.c`. -/
structure Heap where
  mem : Mem
  allocStart : Addr
  allocEnd : Addr
  numPages : Word

/-- `PAGE_SIZE` -/
def pageSize : Nat := 256

/-- `PAGE_ORDER` -/
def pageOrder : Nat := 8

/-- `PAGE_TAKEN`. -/
def pageTaken : Byte := 1#8 <<< 0

/-- `PAGE_LAST`. -/
def pageLast : Byte := 1#8 <<< 1

/-- The macro `pageNum(x)`. It divides by `PAGE_SIZE + 1`. -/
def pageNum (x : Word) : Word := x / BitVec.ofNat 32 (pageSize + 1) + 1#32

/-- `_clear`. -/
def clear (m : Mem) (page : Addr) : Mem := store8 m page 0#8

/-- `_is_free`. -/
def isFree (m : Mem) (page : Addr) : Bool := decide (m page &&& pageTaken = 0#8)

/-- `_set_flag`. It keeps the bits that are set already. -/
def setFlag (m : Mem) (page : Addr) (flags : Byte) : Mem := store8 m page (m page ||| flags)

/-- `_is_last`. -/
def isLast (m : Mem) (page : Addr) : Bool := !decide (m page &&& pageLast = 0#8)

/-- `_align_page`: up to the next multiple of the page size. -/
def alignPage (address : Addr) : Addr :=
  let order := (1#32 <<< pageOrder) - 1#32
  (address + order) &&& ~~~order

/-- The loop of `page_init`, with `n` descriptors left to clear. -/
def clearPages (m : Mem) : Nat → Addr → Mem
  | 0, _ => m
  | n + 1, page => clearPages (clear m page) n (page + 1#32)

/-- `page_init`. -/
def pageInit (L : HeapLayout) (m : Mem) : Heap :=
  let numPages := L.heapSize / BitVec.ofNat 32 pageSize - 2048#32
  let allocStart := alignPage (L.heapStart + 2048#32 * BitVec.ofNat 32 pageSize)
  { mem := clearPages m numPages.toNat L.heapStart
    allocStart := allocStart
    allocEnd := allocStart + BitVec.ofNat 32 pageSize * numPages
    numPages := numPages }

/-- The loop over `j` in `malloc`: are `n` pages from `page_j` on free? -/
def mallocCheck (m : Mem) : Nat → Addr → Bool
  | 0, _ => true
  | n + 1, pageJ => if isFree m pageJ then mallocCheck m n (pageJ + 1#32) else false

/-- The loop over `k` in `malloc`: take `n` pages from `page_k` on. It also
returns the final `page_k`, one past the block. -/
def mallocTake (m : Mem) : Nat → Addr → Mem × Addr
  | 0, pageK => (m, pageK)
  | n + 1, pageK => mallocTake (setFlag m pageK pageTaken) n (pageK + 1#32)

/-- The housekeeping of `malloc`: take the pages, then mark the last one. -/
def mallocMark (m : Mem) (npages : Nat) (pageI : Addr) : Mem :=
  let (m, pageK) := mallocTake m npages pageI
  setFlag m (pageK - 1#32) pageLast

/-- The loop over `i` in `malloc`, with `n` iterations left. -/
def mallocScan (h : Heap) (npages : Nat) : Nat → Nat → Addr → Heap × Addr
  | 0, _, _ => (h, 0#32)
  | n + 1, i, pageI =>
      if isFree h.mem pageI && mallocCheck h.mem npages pageI then
        ({ h with mem := mallocMark h.mem npages pageI },
          h.allocStart + BitVec.ofNat 32 (i * pageSize))
      else mallocScan h npages n (i + 1) (pageI + 1#32)

/-- `malloc`. The bound of the loop is the unsigned `_num_pages - npages`.
The result is `NULL` when the scan ends. -/
def malloc (L : HeapLayout) (h : Heap) (size : Word) : Heap × Addr :=
  let npages := (pageNum size).toNat
  mallocScan h npages (h.numPages - BitVec.ofNat 32 npages).toNat 0 L.heapStart

/-- The walk of `free`: clear descriptors up to and with the first one that
is marked last, and stop early at a free one. -/
def freeWalk : Nat → Mem → Addr → Option Mem
  | 0, _, _ => none
  | fuel + 1, m, page =>
      if isFree m page then some m
      else if isLast m page then some (clear m page)
      else freeWalk fuel (clear m page) (page + 1#32)

/-- `free`. It ignores `NULL` and every address from `_alloc_end` on. -/
def free (L : HeapLayout) (h : Heap) (p : Addr) : Option Heap :=
  if p = 0#32 ∨ h.allocEnd ≤ p then some h
  else
    let page := L.heapStart + (p - h.allocStart) / BitVec.ofNat 32 pageSize
    (freeWalk (2 ^ 32 + 1) h.mem page).map fun m => { h with mem := m }

end MiniRiscvOs.Kernel
