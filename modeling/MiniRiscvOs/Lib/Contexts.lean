import MiniRiscvOs.Lib.Memory

/-!
# `MiniRiscvOs.Lib.Contexts`: where those who take turns keep their state

A scheduler and a number of parties take turns on one processor. Each has a
context in memory, and each party a stack. One word says whose context is in
use, and another one counts the parties.

* `Table` is an array of entries of one size. An entry is a piece of the
  table, and two entries do not overlap.
* `SwitchLayout` is the whole. What is private to a party, its context and
  its stack, is apart from all that the others and the scheduler use
  (`SwitchLayout.private_outside`).
-/

set_option autoImplicit false

namespace MiniRiscvOs.Lib

/-! ### Tables -/

/-- `count` entries of `size` bytes from `base` on. -/
structure Table where
  base : Addr
  count : Nat
  size : Nat
  size_pos : 0 < size
  fits : count * size ≤ 2 ^ 32

namespace Table

variable (T : Table) {i j : Nat} {x : Addr}

/-- The size of the whole table. -/
def bytes : Nat := T.count * T.size

/-- The address of entry `i`. -/
def entry (i : Nat) : Addr := T.base + BitVec.ofNat 32 (i * T.size)

/-- `x` belongs to the table. -/
def Holds (x : Addr) : Prop := InRange T.base T.bytes x

/-- `x` belongs to entry `i`. -/
def Entry (i : Nat) (x : Addr) : Prop := InRange (T.entry i) T.size x

/-- Every entry ends within the table. -/
theorem entry_end_le (hi : i < T.count) : i * T.size + T.size ≤ T.bytes := by
  rw [← Nat.succ_mul]
  exact Nat.mul_le_mul_right _ hi

/-- An entry is a piece of the table. -/
theorem holds_of_entry (hi : i < T.count) (hx : T.Entry i x) : T.Holds x :=
  inRange_of_add (T.entry_end_le hi) T.fits hx

/-- Apart from a table, apart from each of its entries. -/
theorem apart_entry {a : Addr} {n : Nat} (h : Apart a n T.base T.bytes)
    (hi : i < T.count) : Apart a n (T.entry i) T.size :=
  h.sub T.size_pos (T.entry_end_le hi) T.fits

/-- Two entries do not overlap. -/
theorem entry_apart_entry (hi : i < T.count) (hj : j < T.count) (hij : i ≠ j) :
    Apart (T.entry i) T.size (T.entry j) T.size := by
  have hi' := Nat.le_trans (T.entry_end_le hi) T.fits
  have hj' := Nat.le_trans (T.entry_end_le hj) T.fits
  apply apart_of_offset T.base hi' hj'
  rcases Nat.lt_or_gt_of_ne hij with hlt | hgt
  · left
    rw [← Nat.succ_mul]
    exact Nat.mul_le_mul_right _ hlt
  · right
    rw [← Nat.succ_mul]
    exact Nat.mul_le_mul_right _ hgt

end Table

/-! ### The state of those who take turns -/

/-- The contexts and the stacks of the parties, the context of the scheduler, the
word `current` for the context in use, and the word `top` for the number of
parties. No two overlap. -/
structure SwitchLayout where
  contextTable : Table
  stackTable : Table
  scheduler : Addr
  current : Addr
  top : Addr
  same_count : stackTable.count = contextTable.count
  apart : [(scheduler, contextTable.size), (contextTable.base, contextTable.bytes), (current, 4),
    (top, 4), (stackTable.base, stackTable.bytes)].Pairwise fun p q => Apart p.1 p.2 q.1 q.2

namespace SwitchLayout

variable (L : SwitchLayout) {i j : Nat} {x : Addr}

/-- `x` is private to party `j`: it belongs to its context or to its stack. -/
def Private (j : Nat) (x : Addr) : Prop := L.contextTable.Entry j x ∨ L.stackTable.Entry j x

/-- `x` belongs to a context or to one of the two words. -/
def IsGlobal (x : Addr) : Prop :=
  InRange L.scheduler L.contextTable.size x ∨ L.contextTable.Holds x ∨ InRange L.current 4 x ∨
    InRange L.top 4 x

/-- The scheduler's context shares no byte with the table of contexts. -/
theorem scheduler_apart_contexts :
    Apart L.scheduler L.contextTable.size L.contextTable.base L.contextTable.bytes :=
  apart_of_layout L.apart 0 1 (by decide) (by simp)

/-- The scheduler's context shares no byte with the word of the running context.
-/
theorem scheduler_apart_current : Apart L.scheduler L.contextTable.size L.current 4 :=
  apart_of_layout L.apart 0 2 (by decide) (by simp)

/-- The scheduler's context shares no byte with the counter of tasks. -/
theorem scheduler_apart_top : Apart L.scheduler L.contextTable.size L.top 4 :=
  apart_of_layout L.apart 0 3 (by decide) (by simp)

/-- The scheduler's context shares no byte with the stacks. -/
theorem scheduler_apart_stacks :
    Apart L.scheduler L.contextTable.size L.stackTable.base L.stackTable.bytes :=
  apart_of_layout L.apart 0 4 (by decide) (by simp)

/-- The contexts share no byte with the word of the running context. -/
theorem contexts_apart_current :
    Apart L.contextTable.base L.contextTable.bytes L.current 4 :=
  apart_of_layout L.apart 1 2 (by decide) (by simp)

/-- The contexts share no byte with the counter of tasks. -/
theorem contexts_apart_top :
    Apart L.contextTable.base L.contextTable.bytes L.top 4 :=
  apart_of_layout L.apart 1 3 (by decide) (by simp)

/-- The contexts share no byte with the stacks. -/
theorem contexts_apart_stacks :
    Apart L.contextTable.base L.contextTable.bytes L.stackTable.base L.stackTable.bytes :=
  apart_of_layout L.apart 1 4 (by decide) (by simp)

/-- The two single words share no byte. -/
theorem current_apart_top : Apart L.current 4 L.top 4 :=
  apart_of_layout L.apart 2 3 (by decide) (by simp)

/-- The word of the running context shares no byte with the stacks. -/
theorem current_apart_stacks :
    Apart L.current 4 L.stackTable.base L.stackTable.bytes :=
  apart_of_layout L.apart 2 4 (by decide) (by simp)

/-- The counter of tasks shares no byte with the stacks. -/
theorem top_apart_stacks : Apart L.top 4 L.stackTable.base L.stackTable.bytes :=
  apart_of_layout L.apart 3 4 (by decide) (by simp)

/-- The scheduler's context shares no byte with any single context of the table.
-/
theorem scheduler_apart_context (hi : i < L.contextTable.count) :
    Apart L.scheduler L.contextTable.size (L.contextTable.entry i) L.contextTable.size :=
  L.contextTable.apart_entry L.scheduler_apart_contexts hi

/-- Every byte of a task's context is one of the kernel's globals. -/
theorem isGlobal_context (hi : i < L.contextTable.count) (hx : L.contextTable.Entry i x) :
    L.IsGlobal x :=
  Or.inr (Or.inl (L.contextTable.holds_of_entry hi hx))

/-- The stacks are apart from the globals. -/
theorem stack_not_global (hi : i < L.contextTable.count) (hx : L.stackTable.Entry i x) :
    ¬ L.IsGlobal x := by
  have hin := L.stackTable.holds_of_entry (L.same_count ▸ hi) hx
  rintro (h | h | h | h)
  · exact L.scheduler_apart_stacks.not_inRange h hin
  · exact L.contexts_apart_stacks.not_inRange h hin
  · exact L.current_apart_stacks.not_inRange h hin
  · exact L.top_apart_stacks.not_inRange h hin

/-- What is private to a party holds neither of the two words nor a context of
anyone else. -/
theorem private_outside (hj : j < L.contextTable.count) (hx : L.Private j x) :
    ¬ InRange L.current 4 x ∧ ¬ InRange L.scheduler L.contextTable.size x ∧
      ∀ i < L.contextTable.count, i ≠ j → ¬ L.contextTable.Entry i x := by
  cases hx with
  | inl hctx =>
      have hin := L.contextTable.holds_of_entry hj hctx
      exact ⟨L.contexts_apart_current.not_inRange hin,
        L.scheduler_apart_contexts.symm.not_inRange hin,
        fun i hi hij => (L.contextTable.entry_apart_entry hi hj hij).symm.not_inRange hctx⟩
  | inr hstack =>
      have hout := L.stack_not_global hj hstack
      exact ⟨fun h => hout (Or.inr (Or.inr (Or.inl h))), fun h => hout (Or.inl h),
        fun i hi _ h => hout (L.isGlobal_context hi h)⟩

/-- Nor anything of another stack. -/
theorem private_not_stack (hi : i < L.contextTable.count) (hj : j < L.contextTable.count)
    (hij : i ≠ j) (hx : L.Private j x) : ¬ L.stackTable.Entry i x := by
  intro hin
  cases hx with
  | inl hctx => exact L.stack_not_global hi hin (L.isGlobal_context hj hctx)
  | inr hstack =>
      have hi' := L.same_count ▸ hi
      have hj' := L.same_count ▸ hj
      exact (L.stackTable.entry_apart_entry hi' hj' hij).not_inRange hin hstack

/-- No other global is a part of the word `top`. -/
theorem top_outside (hx : InRange L.top 4 x) :
    ¬ InRange L.current 4 x ∧ ¬ InRange L.scheduler L.contextTable.size x ∧
      ∀ i < L.contextTable.count, ¬ L.contextTable.Entry i x :=
  ⟨L.current_apart_top.symm.not_inRange hx, L.scheduler_apart_top.symm.not_inRange hx,
    fun _ hi hctx => L.contexts_apart_top.not_inRange (L.contextTable.holds_of_entry hi hctx) hx⟩

end SwitchLayout

end MiniRiscvOs.Lib
