import Mathlib.Algebra.Notation.Defs
import Mathlib.Logic.Function.Basic
import MiniRiscvOs.Lib.Memory

/-!
# `MiniRiscvOs.Kernel.VirtioDesc`: the descriptor pool of `virtio.c`

`disk.desc[]` is the table the device reads, and `disk.free[]` says which
entries are in use. A request takes three descriptors with `alloc3_desc`,
links them into a chain, and gives them back with `free_chain`, which
follows the links.

Ring size and address type are parameters: the driver has `NUM` entries
and pointers. The C arrays are functions on the index, so what lies past
the end of an array has some value too. An assignment is one function on
the table, and a block of assignments is the list of them in order, so
that another agent can be let in between any two.

`panic` never returns. Its `Outcome` keeps the message and the table of
that moment.
-/

set_option autoImplicit false

namespace MiniRiscvOs.Kernel

open MiniRiscvOs.Lib

/-- How a call ends: it returns a result, it panics, or it does not end
within the fuel it was given. -/
inductive Outcome (σ γ : Type) where
  | ret (result : γ) (s : σ)
  | panic (msg : String) (s : σ)
  | hang

/-- Go on after a call that returned. -/
def Outcome.bind {σ γ δ : Type} (o : Outcome σ γ) (f : γ → σ → Outcome σ δ) : Outcome σ δ :=
  match o with
  | .ret r s => f r s
  | .panic msg s => .panic msg s
  | .hang => .hang

/-- `virtq_desc_t`. -/
structure VirtqDesc (α : Type) where
  addr : α
  len : Word
  flags : BitVec 16
  next : BitVec 16
deriving DecidableEq, Repr

/-- `VRING_DESC_F_NEXT`: chained with another descriptor. -/
def vringDescFNext : BitVec 16 := 1#16

/-- `VRING_DESC_F_WRITE`: the device writes (vs read). -/
def vringDescFWrite : BitVec 16 := 2#16

/-- `disk.desc[]` and `disk.free[]`. -/
@[ext]
structure DescTable (α : Type) where
  desc : Nat → VirtqDesc α
  free : Nat → Bool

namespace DescTable

variable {α : Type}

/-- `disk.desc[i].addr = addr`. -/
def setAddr (i : Nat) (addr : α) (t : DescTable α) : DescTable α :=
  { t with desc := Function.update t.desc i { t.desc i with addr := addr } }

/-- `disk.desc[i].len = len`. -/
def setLen (i : Nat) (len : Word) (t : DescTable α) : DescTable α :=
  { t with desc := Function.update t.desc i { t.desc i with len := len } }

/-- `disk.desc[i].flags = flags`. -/
def setFlags (i : Nat) (flags : BitVec 16) (t : DescTable α) : DescTable α :=
  { t with desc := Function.update t.desc i { t.desc i with flags := flags } }

/-- `disk.desc[i].flags |= flags`. -/
def orFlags (i : Nat) (flags : BitVec 16) (t : DescTable α) : DescTable α :=
  t.setFlags i ((t.desc i).flags ||| flags)

/-- `disk.desc[i].next = next`. The field has 16 bits. -/
def setNext (i : Nat) (next : Nat) (t : DescTable α) : DescTable α :=
  { t with desc := Function.update t.desc i { t.desc i with next := BitVec.ofNat 16 next } }

/-- `disk.free[i] = b`. -/
def setFree (i : Nat) (b : Bool) (t : DescTable α) : DescTable α :=
  { t with free := Function.update t.free i b }

/-- Run a block of assignments in order. -/
def exec (t : DescTable α) (stmts : List (DescTable α → DescTable α)) : DescTable α :=
  stmts.foldl (fun t stmt => stmt t) t

end DescTable

section Pool

variable {α : Type}

/-- The loop of `alloc_desc`, at index `i` with `n` indices left. `none` is
the result `-1`. -/
def allocDescLoop (t : DescTable α) : Nat → Nat → Option Nat × DescTable α
  | 0, _ => (none, t)
  | n + 1, i => if t.free i then (some i, t.setFree i false) else allocDescLoop t n (i + 1)

/-- `alloc_desc`: find a free descriptor, mark it non-free, return its
index. -/
def allocDesc (num : Nat) (t : DescTable α) : Option Nat × DescTable α :=
  allocDescLoop t num 0

variable [Zero α]

/-- The assignments of `free_desc`. -/
def freeDescStmts (i : Nat) : List (DescTable α → DescTable α) :=
  [.setAddr i 0, .setLen i 0#32, .setFlags i 0#16, .setNext i 0, .setFree i true]

/-- `free_desc`: mark a descriptor as free. -/
def freeDesc (num : Nat) (t : DescTable α) (i : Nat) : Outcome (DescTable α) Unit :=
  if num ≤ i then .panic "free_desc 1" t
  else if t.free i then .panic "free_desc 2" t
  else .ret () (t.exec (freeDescStmts i))

/-- The loop of `free_chain`. It reads the link before it frees the
descriptor. -/
def freeChainLoop (num : Nat) : Nat → DescTable α → Nat → Outcome (DescTable α) Unit
  | 0, _, _ => .hang
  | fuel + 1, t, i =>
      let flag := (t.desc i).flags
      let nxt := (t.desc i).next
      (freeDesc num t i).bind fun _ t =>
        if flag &&& vringDescFNext ≠ 0#16 then freeChainLoop num fuel t nxt.toNat
        else .ret () t

/-- `free_chain`: free a chain of descriptors. Each round frees one more of
the `num` descriptors or panics. -/
def freeChain (num : Nat) (t : DescTable α) (i : Nat) : Outcome (DescTable α) Unit :=
  freeChainLoop num (num + 1) t i

/-- The rollback in `alloc3_desc`: free the descriptors of the list. -/
def freeDescs (num : Nat) (t : DescTable α) : List Nat → Outcome (DescTable α) Unit
  | [] => .ret () t
  | j :: js => (freeDesc num t j).bind fun _ t => freeDescs num t js

/-- The loop of `alloc3_desc`, with `n` descriptors still to take and `idx`
those it has. `none` is the result `-1`. -/
def alloc3DescLoop (num : Nat) :
    Nat → List Nat → DescTable α → Outcome (DescTable α) (Option (List Nat))
  | 0, idx, t => .ret (some idx) t
  | n + 1, idx, t =>
      match allocDesc num t with
      | (some i, t) => alloc3DescLoop num n (idx ++ [i]) t
      | (none, t) => (freeDescs num t idx).bind fun _ t => .ret none t

/-- `alloc3_desc`: allocate three descriptors (they need not be
contiguous). -/
def alloc3Desc (num : Nat) (t : DescTable α) :
    Outcome (DescTable α) (Option (List Nat)) :=
  alloc3DescLoop num 3 [] t

end Pool

section Link

variable {α : Type}

/-- `virtio_disk_rw` on the header descriptor, linked to the data. -/
def linkHeader (idx : List Nat) (addr : α) (len : Word) : List (DescTable α → DescTable α) :=
  [.setAddr idx[0]! addr, .setLen idx[0]! len, .setFlags idx[0]! vringDescFNext,
    .setNext idx[0]! idx[1]!]

/-- `virtio_disk_rw` on the data descriptor, linked to the status byte. For
a write the device reads the data, for a read the device writes it. -/
def linkData (idx : List Nat) (write : Bool) (addr : α) (len : Word) :
    List (DescTable α → DescTable α) :=
  [.setAddr idx[1]! addr, .setLen idx[1]! len,
    .setFlags idx[1]! (if write then 0#16 else vringDescFWrite),
    .orFlags idx[1]! vringDescFNext, .setNext idx[1]! idx[2]!]

/-- `virtio_disk_rw` on the descriptor of the status byte, the last of the
chain. -/
def linkStatus (idx : List Nat) (addr : α) (len : Word) : List (DescTable α → DescTable α) :=
  [.setAddr idx[2]! addr, .setLen idx[2]! len, .setFlags idx[2]! vringDescFWrite,
    .setNext idx[2]! 0]

end Link

end MiniRiscvOs.Kernel
