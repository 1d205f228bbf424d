import MiniRiscvOs.Kernel.Alloc
import MiniRiscvOs.Lib.System

/-!
# `MiniRiscvOs.Kernel.MallocSteps`: `malloc` one descriptor access at a time

Nothing in `malloc` keeps the timer out, so a task may be preempted between
any two accesses of the descriptor table. `MallocPc` says which access comes
next. Each `|=` of `_set_flag` is two of them, a load and a store, and the
byte that was loaded is in a register of the task meanwhile.

`mallocSystem` is one call on its own. `twoMallocs` is two calls, one for
each of two tasks, in any order of their steps. A task keeps its registers
and its stack over a preemption, so all that the two calls share is the
memory.
-/

set_option autoImplicit false

namespace MiniRiscvOs.Kernel

open MiniRiscvOs.Lib

/-- The next access of a call of `malloc`. The counters `i`, `j` and `k` are
those of the source. -/
inductive MallocPc where
  /-- `_is_free(page_i)`. -/
  | scan (i : Nat)
  /-- `_is_free(page_j)`, for the run that starts at `page_i`. -/
  | check (i j : Nat)
  /-- The load of `_set_flag(page_k, PAGE_TAKEN)`. -/
  | takeLoad (i k : Nat)
  /-- Its store, with the flags to store. -/
  | takeStore (i k : Nat) (flags : Byte)
  /-- The load of `_set_flag(page_k, PAGE_LAST)`. -/
  | lastLoad (i : Nat)
  | lastStore (i : Nat) (flags : Byte)
  /-- The call has returned: the first page of its block, or `NULL`. -/
  | done (block : Option Nat)
deriving DecidableEq

/-- The loop test over `i`. -/
def scanAt (h : Heap) (npages i : Nat) : MallocPc :=
  if i < (h.numPages - BitVec.ofNat 32 npages).toNat then .scan i else .done none

/-- The loop test over `k`. -/
def takeAt (npages i k : Nat) : MallocPc :=
  if k < i + npages then .takeLoad i k else .lastLoad i

/-- The loop test over `j`. When the loop ends, `found` is still 1. -/
def checkAt (npages i j : Nat) : MallocPc :=
  if j < i + npages then .check i j else takeAt npages i i

/-- The descriptor of page `i`. -/
def pagePtr (L : HeapLayout) (i : Nat) : Addr := L.heapStart + BitVec.ofNat 32 i

/-- The descriptor that the next access touches. -/
def MallocPc.touches (L : HeapLayout) (npages : Nat) : MallocPc → Option Addr
  | .scan i => some (pagePtr L i)
  | .check _ j => some (pagePtr L j)
  | .takeLoad _ k => some (pagePtr L k)
  | .takeStore _ k _ => some (pagePtr L k)
  | .lastLoad i => some (pagePtr L (i + npages) - 1#32)
  | .lastStore i _ => some (pagePtr L (i + npages) - 1#32)
  | .done _ => none

/-- One access of `malloc`, with what the call computes up to its next
access. -/
def mallocStep (L : HeapLayout) (h : Heap) (npages : Nat) (m : Mem) :
    MallocPc → Mem × MallocPc
  | .scan i =>
      (m, if isFree m (pagePtr L i) then checkAt npages i i else scanAt h npages (i + 1))
  | .check i j =>
      (m, if isFree m (pagePtr L j) then checkAt npages i (j + 1) else scanAt h npages (i + 1))
  | .takeLoad i k => (m, .takeStore i k (m (pagePtr L k) ||| pageTaken))
  | .takeStore i k flags => (store8 m (pagePtr L k) flags, takeAt npages i (k + 1))
  | .lastLoad i => (m, .lastStore i (m (pagePtr L (i + npages) - 1#32) ||| pageLast))
  | .lastStore i flags => (store8 m (pagePtr L (i + npages) - 1#32) flags, .done (some i))
  | .done block => (m, .done block)

/-- The value that a call returns. -/
def returned (h : Heap) : Option Nat → Addr
  | some i => h.allocStart + BitVec.ofNat 32 (i * pageSize)
  | none => 0#32

/-- One call of `malloc` from the heap `h` on. The label of a step is the
descriptor that it touches. -/
def mallocSystem (L : HeapLayout) (h : Heap) (size : Word) :
    System (Mem × MallocPc) Addr where
  init s := s = (h.mem, scanAt h (pageNum size).toNat 0)
  step s a t :=
    s.2.touches L (pageNum size).toNat = some a ∧
    t = mallocStep L h (pageNum size).toNat s.1 s.2

/-- The memory and the two calls. -/
structure MallocPair where
  mem : Mem
  pc : Bool → MallocPc

/-- Two calls of `malloc` from the heap `h` on, one by each task. The label
of a step is the task that runs. -/
def twoMallocs (L : HeapLayout) (h : Heap) (size : Bool → Word) : System MallocPair Bool where
  init s := s = ⟨h.mem, fun t => scanAt h (pageNum (size t)).toNat 0⟩
  step s t s' :=
    (∀ block, s.pc t ≠ .done block) ∧
    s' = ⟨(mallocStep L h (pageNum (size t)).toNat s.mem (s.pc t)).1,
      Function.update s.pc t (mallocStep L h (pageNum (size t)).toNat s.mem (s.pc t)).2⟩

end MiniRiscvOs.Kernel
