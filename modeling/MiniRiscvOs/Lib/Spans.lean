import Mathlib.Data.List.Pairwise
import Mathlib.Data.List.Perm.Basic
import Mathlib.Order.Basic

/-!
# `MiniRiscvOs.Lib.Spans`: disjoint runs of cells in a flat table

A `Span` is a run of consecutive cells. A `SpanSet` is a list of owners
with pairwise disjoint spans inside a bounded table. The bounds and the
disjointness are fields, so an overlapping set cannot be built.

`SpanSet.marks` is the flat picture of the set: a cell of no span is
`free`, the last cell of a span is `last`, every other cell of a span is
`body`. A table that only stores the marks still holds the whole set,
because the marks of one span never touch those of another.
`marks_add` and `marks_remove` say how the picture follows the set.
-/

set_option autoImplicit false

namespace MiniRiscvOs.Lib

/-- `len` consecutive cells from `first` on. -/
structure Span where
  first : Nat
  len : Nat
deriving DecidableEq, Repr

/-- What a flat table stores for one cell. -/
inductive Mark where
  | free
  | body
  | last
deriving DecidableEq, Repr

namespace Span

instance : Membership Nat Span where
  mem s j := s.first ≤ j ∧ j < s.first + s.len

/-- An index lies in a span when it is between its ends. -/
theorem mem_def {s : Span} {j : Nat} : j ∈ s ↔ s.first ≤ j ∧ j < s.first + s.len :=
  Iff.rfl

/-- The same for a span given by its fields. -/
theorem mem_mk {i n j : Nat} : j ∈ (⟨i, n⟩ : Span) ↔ i ≤ j ∧ j < i + n :=
  Iff.rfl

instance (s : Span) (j : Nat) : Decidable (j ∈ s) :=
  inferInstanceAs (Decidable (_ ∧ _))

/-- No cell belongs to both spans. -/
def Disjoint (s t : Span) : Prop := ∀ j, j ∈ s → j ∉ t

/-- Disjointness is symmetric. -/
theorem Disjoint.symm {s t : Span} (h : s.Disjoint t) : t.Disjoint s :=
  fun j ht hs => h j hs ht

/-- The mark of a cell as one span sees it. -/
def mark (s : Span) (j : Nat) : Mark :=
  if j ∈ s then
    if j + 1 = s.first + s.len then .last else .body
  else .free

/-- The last index of a span carries the last mark. -/
theorem mark_last {s : Span} {j : Nat} (hj : j ∈ s) (h : j + 1 = s.first + s.len) :
    s.mark j = .last := by
  rw [mark, if_pos hj, if_pos h]

/-- Every earlier index carries the body mark. -/
theorem mark_body {s : Span} {j : Nat} (hj : j ∈ s) (h : j + 1 < s.first + s.len) :
    s.mark j = .body := by
  rw [mark, if_pos hj, if_neg (by omega)]

/-- No index of a span is marked free. -/
theorem mark_ne_free {s : Span} {j : Nat} (hj : j ∈ s) : s.mark j ≠ .free := by
  rw [mark, if_pos hj]
  split <;> simp

end Span

/-- Owners whose spans are pairwise disjoint and end by `bound`. -/
structure SpanSet {κ : Type} (span : κ → Span) (bound : Nat) where
  owners : List κ
  disjoint : owners.Pairwise fun a b => (span a).Disjoint (span b)
  inside : ∀ a ∈ owners, (span a).first + (span a).len ≤ bound

namespace SpanSet

variable {κ : Type} {span : κ → Span} {bound : Nat}

/-- The set with no owners. -/
def empty (span : κ → Span) (bound : Nat) : SpanSet span bound where
  owners := []
  disjoint := List.Pairwise.nil
  inside := by simp

/-- One more owner, with a span inside the table and away from the rest. -/
def add (S : SpanSet span bound) (a : κ) (hin : (span a).first + (span a).len ≤ bound)
    (hnew : ∀ b ∈ S.owners, (span a).Disjoint (span b)) : SpanSet span bound where
  owners := a :: S.owners
  disjoint := List.pairwise_cons.mpr ⟨hnew, S.disjoint⟩
  inside := by
    intro b hb
    rcases List.mem_cons.mp hb with rfl | hb
    · exact hin
    · exact S.inside b hb

/-- One owner less. -/
def remove [BEq κ] [LawfulBEq κ] (S : SpanSet span bound) (a : κ) : SpanSet span bound where
  owners := S.owners.erase a
  disjoint := S.disjoint.sublist List.erase_sublist
  inside b hb := S.inside b (List.mem_of_mem_erase hb)

/-- Adding puts the new owner first. -/
@[simp] theorem owners_add (S : SpanSet span bound) {a : κ}
    {hin : (span a).first + (span a).len ≤ bound}
    {hnew : ∀ b ∈ S.owners, (span a).Disjoint (span b)} :
    (S.add a hin hnew).owners = a :: S.owners := rfl

/-- Removing drops one occurrence of the owner. -/
@[simp] theorem owners_remove [BEq κ] [LawfulBEq κ] (S : SpanSet span bound) (a : κ) :
    (S.remove a).owners = S.owners.erase a := rfl

/-- The flat picture of the set. -/
def marks (S : SpanSet span bound) (j : Nat) : Mark :=
  match S.owners.find? fun a => decide (j ∈ span a) with
  | some a => (span a).mark j
  | none => .free

/-- Two owners that share a cell are the same owner. -/
theorem eq_of_mem (S : SpanSet span bound) {a b : κ} (ha : a ∈ S.owners)
    (hb : b ∈ S.owners) {j : Nat} (hja : j ∈ span a) (hjb : j ∈ span b) : a = b := by
  have hsymm : Std.Symm fun a b => (span a).Disjoint (span b) := ⟨fun _ _ h => h.symm⟩
  by_contra hne
  exact S.disjoint.forall ha hb hne j hja hjb

/-- A cell of an owner's span carries the mark that span gives it. -/
theorem marks_of_mem (S : SpanSet span bound) {a : κ} (ha : a ∈ S.owners) {j : Nat}
    (hj : j ∈ span a) : S.marks j = (span a).mark j := by
  unfold marks
  split
  · rename_i b hb
    have hjb : j ∈ span b := by simpa using List.find?_some hb
    rw [S.eq_of_mem (List.mem_of_find?_eq_some hb) ha hjb hj]
  · rename_i hnone
    have := List.find?_eq_none.mp hnone a ha
    simp [hj] at this

/-- A cell of no span is free. -/
theorem marks_of_not_mem (S : SpanSet span bound) {j : Nat}
    (hj : ∀ a ∈ S.owners, j ∉ span a) : S.marks j = .free := by
  unfold marks
  rw [List.find?_eq_none.mpr (by simpa using hj)]

/-- A cell is free exactly when no owner's span has it. -/
theorem marks_eq_free_iff (S : SpanSet span bound) (j : Nat) :
    S.marks j = .free ↔ ∀ a ∈ S.owners, j ∉ span a := by
  constructor
  · intro h a ha hj
    rw [S.marks_of_mem ha hj] at h
    exact Span.mark_ne_free hj h
  · exact S.marks_of_not_mem

/-- Every index is free at first. -/
@[simp] theorem marks_empty (j : Nat) : (empty span bound).marks j = .free := rfl

/-- Adding an owner marks its own cells and no other. -/
theorem marks_add (S : SpanSet span bound) {a : κ}
    {hin : (span a).first + (span a).len ≤ bound}
    {hnew : ∀ b ∈ S.owners, (span a).Disjoint (span b)} (j : Nat) :
    (S.add a hin hnew).marks j = if j ∈ span a then (span a).mark j else S.marks j := by
  split
  · rename_i hj
    exact (S.add a hin hnew).marks_of_mem List.mem_cons_self hj
  · rename_i hj
    simp [marks, add, hj]

/-- What is left after a removal is disjoint from what was removed. -/
theorem disjoint_of_mem_remove [BEq κ] [LawfulBEq κ] (S : SpanSet span bound) {a b : κ}
    (ha : a ∈ S.owners) (hb : b ∈ (S.remove a).owners) : (span a).Disjoint (span b) := by
  have hsymm : ∀ {x y : κ}, (span x).Disjoint (span y) → (span y).Disjoint (span x) :=
    fun h => h.symm
  have hpw := ((List.perm_cons_erase ha).pairwise_iff hsymm).mp S.disjoint
  exact (List.pairwise_cons.mp hpw).1 b hb

/-- Removing an owner frees its own cells and no other. -/
theorem marks_remove [BEq κ] [LawfulBEq κ] (S : SpanSet span bound) {a : κ} (ha : a ∈ S.owners)
    (j : Nat) : (S.remove a).marks j = if j ∈ span a then .free else S.marks j := by
  split
  · rename_i hj
    exact marks_of_not_mem _ fun b hb hjb => S.disjoint_of_mem_remove ha hb j hj hjb
  · rename_i hj
    by_cases hb : ∃ b ∈ S.owners, j ∈ span b
    · obtain ⟨b, hb, hjb⟩ := hb
      have hne : b ≠ a := fun h => hj (h ▸ hjb)
      have hb' : b ∈ (S.remove a).owners := (List.mem_erase_of_ne hne).mpr hb
      rw [marks_of_mem _ hb' hjb, S.marks_of_mem hb hjb]
    · have hnone : ∀ b ∈ S.owners, j ∉ span b := fun b hb' hjb => hb ⟨b, hb', hjb⟩
      rw [S.marks_of_not_mem hnone]
      exact marks_of_not_mem _ fun b hb' => hnone b (List.mem_of_mem_erase hb')

end SpanSet

end MiniRiscvOs.Lib
