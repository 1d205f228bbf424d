import MiniRiscvOs.Proofs.MallocSteps

/-!
# `MiniRiscvOs.Proofs.MallocPair`: two calls of `malloc` at once

Each call first searches and then marks. `claimOf` is the block it has
settled on, and `HasTaken` are the pages of it that it has marked so far.
`PairInv` holds in every run: a descriptor is taken when it was taken at the
start or one of the calls has taken it.

A call goes wrong when it stores `PAGE_TAKEN` into a descriptor that the
other call has taken since the check. `twoMallocs_serial_iff` shows that
this is the only way: without such a store the two blocks are disjoint and
the memory is that of the two calls one after the other. The call that
settles on its block first comes first in that order, because it searched a
memory that nobody had written.
-/

set_option autoImplicit false

namespace MiniRiscvOs.Proofs

open MiniRiscvOs.Lib
open MiniRiscvOs.Kernel

/-! ### One call -/

/-- The first page of the block that a call has settled on. -/
def claimOf : MallocPc → Option Nat
  | .scan _ => none
  | .check _ _ => none
  | .takeLoad i _ => some i
  | .takeStore i _ _ => some i
  | .lastLoad i => some i
  | .lastStore i _ => some i
  | .done block => block

/-- The number of start pages that a call has ruled out. -/
def searchedTo (bound : Nat) : MallocPc → Nat
  | .scan i => i
  | .check i _ => i
  | .takeLoad i _ => i
  | .takeStore i _ _ => i
  | .lastLoad i => i
  | .lastStore i _ => i
  | .done (some i) => i
  | .done none => bound

/-- The descriptors in which a call has set `PAGE_TAKEN`. -/
def HasTaken (L : HeapLayout) (n : Nat) : MallocPc → Addr → Prop
  | .takeLoad i k, x => InRange (pageDesc L i) (k - i) x
  | .takeStore i k _, x => InRange (pageDesc L i) (k - i) x
  | .lastLoad i, x => InRange (pageDesc L i) n x
  | .lastStore i _, x => InRange (pageDesc L i) n x
  | .done (some i), x => InRange (pageDesc L i) n x
  | .scan _, _ => False
  | .check _ _, _ => False
  | .done none, _ => False

/-- What a call knows of the memory `m₀` at its start, from the descriptors
that it found free. -/
def CallOk (L : HeapLayout) (h : Heap) (n : Nat) : MallocPc → Prop
  | .scan i => i < (h.numPages - BitVec.ofNat 32 n).toNat
  | .check i j => i < (h.numPages - BitVec.ofNat 32 n).toNat ∧ i ≤ j ∧ j < i + n ∧
      FreeRun h.mem (pageDesc L i) (j - i)
  | .takeLoad i k => i < (h.numPages - BitVec.ofNat 32 n).toNat ∧ i ≤ k ∧ k < i + n ∧
      FreeRun h.mem (pageDesc L i) n
  | .takeStore i k flags => i < (h.numPages - BitVec.ofNat 32 n).toNat ∧ i ≤ k ∧ k < i + n ∧
      FreeRun h.mem (pageDesc L i) n ∧ flags &&& pageTaken ≠ 0#8
  | .lastLoad i => i < (h.numPages - BitVec.ofNat 32 n).toNat ∧
      FreeRun h.mem (pageDesc L i) n
  | .lastStore i flags => i < (h.numPages - BitVec.ofNat 32 n).toNat ∧
      FreeRun h.mem (pageDesc L i) n ∧ flags &&& pageTaken ≠ 0#8
  | .done (some i) => i < (h.numPages - BitVec.ofNat 32 n).toNat ∧
      FreeRun h.mem (pageDesc L i) n
  | .done none => True

section Call

variable {L : HeapLayout} {h : Heap} {n : Nat}

/-! The loop tests lead to a search, or to the marking of a block. -/

/-- Before the search of a start page a call knows nothing. -/
theorem callOk_scanAt (i : Nat) : CallOk L h n (scanAt h n i) := by
  unfold scanAt
  split
  · assumption
  · trivial

/-- Before the marking it knows that the block was free. -/
theorem callOk_takeAt {i k : Nat} (hi : i < (h.numPages - BitVec.ofNat 32 n).toNat)
    (hk : i ≤ k) (hrun : FreeRun h.mem (pageDesc L i) n) : CallOk L h n (takeAt n i k) := by
  unfold takeAt
  split
  · exact ⟨hi, hk, ‹_›, hrun⟩
  · exact ⟨hi, hrun⟩

/-- In the search it knows that the descriptors so far were free. -/
theorem callOk_checkAt {i j : Nat} (hi : i < (h.numPages - BitVec.ofNat 32 n).toNat)
    (hij : i ≤ j) (hjn : j ≤ i + n) (hrun : FreeRun h.mem (pageDesc L i) (j - i)) :
    CallOk L h n (checkAt n i j) := by
  unfold checkAt
  split
  · exact ⟨hi, hij, ‹_›, hrun⟩
  · have hlen : j - i = n := by omega
    rw [hlen] at hrun
    exact callOk_takeAt hi (Nat.le_refl i) hrun

/-- A call that goes on searching has settled on nothing. -/
@[simp] theorem claim_scanAt (i : Nat) : claimOf (scanAt h n i) = none := by
  unfold scanAt
  split <;> rfl

/-- A call that marks has settled on its block. -/
@[simp] theorem claim_takeAt (i k : Nat) : claimOf (takeAt n i k) = some i := by
  unfold takeAt
  split <;> rfl

/-- No descriptor is taken while the call scans. -/
@[simp] theorem hasTaken_scanAt (i : Nat) (x : Addr) : ¬ HasTaken L n (scanAt h n i) x := by
  unfold scanAt
  split <;> exact not_false

/-- At `k` the descriptors before `k` are taken. -/
theorem hasTaken_takeAt {i k : Nat} (hk : k ≤ i + n) (x : Addr) :
    HasTaken L n (takeAt n i k) x ↔ InRange (pageDesc L i) (k - i) x := by
  unfold takeAt
  split
  · rfl
  · have hlen : k - i = n := by omega
    rw [hlen]
    rfl

/-- No descriptor is taken while the call checks a run. -/
theorem hasTaken_checkAt (hpos : 0 < n) (i j : Nat) (x : Addr) :
    ¬ HasTaken L n (checkAt n i j) x := by
  unfold checkAt
  split
  · exact not_false
  · rw [hasTaken_takeAt (by omega), Nat.sub_self]
    exact not_inRange_zero _ _

/-- At `i` no more than the start pages before `i` are ruled out. -/
theorem searched_scanAt (i : Nat) :
    searchedTo (h.numPages - BitVec.ofNat 32 n).toNat (scanAt h n i) ≤ i := by
  unfold scanAt
  split
  · exact Nat.le_refl i
  · simp only [searchedTo]
    omega

/-- The marking rules out no further start page. -/
@[simp] theorem searched_takeAt (b i k : Nat) : searchedTo b (takeAt n i k) = i := by
  unfold takeAt
  split <;> rfl

/-- The check of a run rules out no further start page. -/
@[simp] theorem searched_checkAt (b i j : Nat) : searchedTo b (checkAt n i j) = i := by
  unfold checkAt
  split
  · rfl
  · exact searched_takeAt b i i

/-- The descriptor of page `k` among the pages from `i` on. -/
theorem inRange_pageDesc {i k d : Nat} (hik : i ≤ k) (hk : k - i < 2 ^ 32) :
    InRange (pageDesc L i) d (pageDesc L k) ↔ k - i < d := by
  have hdesc : pageDesc L k = pageDesc L i + BitVec.ofNat 32 (k - i) := by
    rw [pageDesc_add, Nat.add_sub_cancel' hik]
  rw [hdesc, inRange_add_ofNat _ hk]

/-- What a call has taken grows by the page it stores to. -/
theorem hasTaken_takeAt_succ {i k : Nat} (hn : n < 2 ^ 32) (hik : i ≤ k) (hkn : k < i + n)
    (x : Addr) :
    HasTaken L n (takeAt n i (k + 1)) x
      ↔ InRange (pageDesc L i) (k - i) x ∨ x = pageDesc L k := by
  have hdesc : pageDesc L i + BitVec.ofNat 32 (k - i) = pageDesc L k := by
    rw [pageDesc_add, Nat.add_sub_cancel' hik]
  have hlen : k + 1 - i = (k - i) + 1 := by omega
  rw [hasTaken_takeAt (by omega), hlen, inRange_succ_last (by omega), hdesc]

/-! What one access of a call does. -/

variable {m : Mem} {pc : MallocPc}

/-- A call keeps what it knows, as long as no descriptor becomes free and its
own pages stay taken. -/
theorem callOk_step (hpos : 0 < n) (hn : n < 2 ^ 32) (hok : CallOk L h n pc)
    (hfree : ∀ x, isFree m x = true → isFree h.mem x = true)
    (hown : ∀ x, HasTaken L n pc x → isFree m x = false) :
    CallOk L h n (mallocStep L h n m pc).2 := by
  cases pc with
  | scan i =>
      simp only [mallocStep]
      split
      · refine callOk_checkAt hok (Nat.le_refl i) (by omega) ?_
        simp [FreeRun]
      · exact callOk_scanAt _
  | check i j =>
      obtain ⟨hi, hij, hjn, hrun⟩ := hok
      simp only [mallocStep]
      split
      · rename_i hpage
        refine callOk_checkAt hi (by omega) (by omega) fun k hk => ?_
        -- The page just read, or one of those before it.
        by_cases hlast : i + k = j
        · rw [pageDesc_add, hlast]
          exact hfree _ hpage
        · exact hrun k (by omega)
      · exact callOk_scanAt _
  | takeLoad i k =>
      obtain ⟨hi, hik, hkn, hrun⟩ := hok
      exact ⟨hi, hik, hkn, hrun, or_pageTaken_ne _⟩
  | takeStore i k flags =>
      obtain ⟨hi, hik, hkn, hrun, -⟩ := hok
      exact callOk_takeAt hi (by omega) hrun
  | lastLoad i =>
      obtain ⟨hi, hrun⟩ := hok
      refine ⟨hi, hrun, ?_⟩
      -- The call has taken the last page of its block.
      have hlast := hown (pageDesc L (i + n - 1))
        ((inRange_pageDesc (by omega) (by omega)).mpr (by omega))
      rw [or_pageLast_and, lastPtr_eq L i hpos]
      simpa [isFree] using hlast
  | lastStore i flags => exact ⟨hok.1, hok.2.1⟩
  | done block => exact hok

/-- The pages a call has taken stay its own. -/
theorem hasTaken_step (hn : n < 2 ^ 32) (hok : CallOk L h n pc) {x : Addr}
    (hx : HasTaken L n pc x) : HasTaken L n (mallocStep L h n m pc).2 x := by
  cases pc with
  | scan i => exact absurd hx not_false
  | check i j => exact absurd hx not_false
  | takeLoad i k => exact hx
  | takeStore i k flags =>
      obtain ⟨-, hik, hkn, -⟩ := hok
      exact (hasTaken_takeAt_succ hn hik hkn x).mpr (Or.inl hx)
  | lastLoad i => exact hx
  | lastStore i flags => exact hx
  | done block => exact hx

/-- An access takes the pages that the call has after it, and frees none. -/
theorem taken_step (hpos : 0 < n) (hn : n < 2 ^ 32) (hok : CallOk L h n pc)
    (hown : ∀ x, HasTaken L n pc x → isFree m x = false) (x : Addr) :
    isFree (mallocStep L h n m pc).1 x = false
      ↔ isFree m x = false ∨ HasTaken L n (mallocStep L h n m pc).2 x := by
  -- Only the two stores change a byte, each its own.
  cases pc with
  | scan i =>
      simp only [mallocStep]
      split <;> simp [hasTaken_checkAt hpos]
  | check i j =>
      simp only [mallocStep]
      split <;> simp [hasTaken_checkAt hpos]
  | takeLoad i k => exact (or_iff_left_of_imp (hown x)).symm
  | takeStore i k flags =>
      obtain ⟨-, hik, hkn, -, hflags⟩ := hok
      simp only [mallocStep, pagePtr_eq, hasTaken_takeAt_succ hn hik hkn]
      by_cases hx : x = pageDesc L k
      · simp [hx, isFree, hflags]
      · have hsame : isFree (store8 m (pageDesc L k) flags) x = isFree m x := by
          rw [isFree, store8_of_ne m _ hx, isFree]
        rw [hsame]
        simp only [hx, or_false]
        exact (or_iff_left_of_imp (hown x)).symm
  | lastLoad i => exact (or_iff_left_of_imp (hown x)).symm
  | lastStore i flags =>
      obtain ⟨-, -, hflags⟩ := hok
      simp only [mallocStep, lastPtr_eq L i hpos]
      by_cases hx : x = pageDesc L (i + n - 1)
      · have hlast : HasTaken L n (.done (some i)) (pageDesc L (i + n - 1)) :=
          (inRange_pageDesc (by omega) (by omega)).mpr (by omega)
        simp [hx, isFree, hflags, hlast]
      · have hsame : isFree (store8 m (pageDesc L (i + n - 1)) flags) x = isFree m x := by
          rw [isFree, store8_of_ne m _ hx, isFree]
        rw [hsame]
        exact (or_iff_left_of_imp (hown x)).symm
  | done block => exact (or_iff_left_of_imp (hown x)).symm

/-- A call that has settled on a block keeps it. -/
theorem claim_step {i : Nat} (hclaim : claimOf pc = some i) :
    claimOf (mallocStep L h n m pc).2 = some i := by
  cases pc with
  | scan i => simp [claimOf] at hclaim
  | check i j => simp [claimOf] at hclaim
  | takeLoad i k => exact hclaim
  | takeStore i k flags => rwa [mallocStep, claim_takeAt]
  | lastLoad i => exact hclaim
  | lastStore i flags => exact hclaim
  | done block => exact hclaim

/-- A call rules out a start page only when a page of the run is taken, and
only before it has settled on a block. -/
theorem searched_step (hpos : 0 < n) (hok : CallOk L h n pc) :
    let b := (h.numPages - BitVec.ofNat 32 n).toNat
    searchedTo b (mallocStep L h n m pc).2 = searchedTo b pc ∨
      (claimOf pc = none ∧ searchedTo b (mallocStep L h n m pc).2 ≤ searchedTo b pc + 1 ∧
        ∃ k < n, isFree m (pageDesc L (searchedTo b pc + k)) = false) := by
  intro b
  cases pc with
  | scan i =>
      simp only [mallocStep]
      split
      · exact Or.inl (searched_checkAt b i i)
      · rename_i hpage
        -- A taken page at the start itself: the scan goes on by one.
        refine Or.inr ⟨rfl, searched_scanAt (i + 1), 0, hpos, ?_⟩
        simpa [searchedTo] using hpage
  | check i j =>
      obtain ⟨-, hij, hjn, -⟩ := hok
      simp only [mallocStep]
      split
      · exact Or.inl (searched_checkAt b i (j + 1))
      · rename_i hpage
        -- A taken page inside the run rules out the start it began at.
        refine Or.inr ⟨rfl, searched_scanAt (i + 1), j - i, by omega, ?_⟩
        simpa [searchedTo, Nat.add_sub_cancel' hij] using hpage
  -- From here on the call has a block, and its search is over.
  | takeLoad i k => exact Or.inl rfl
  | takeStore i k flags => exact Or.inl (searched_takeAt b i (k + 1))
  | lastLoad i => exact Or.inl rfl
  | lastStore i flags => exact Or.inl rfl
  | done block => exact Or.inl rfl

/-- A call takes a page only by the store of `PAGE_TAKEN`. -/
theorem hasTaken_new (hpos : 0 < n) (hn : n < 2 ^ 32) (hok : CallOk L h n pc) {x : Addr}
    (hx : HasTaken L n (mallocStep L h n m pc).2 x) :
    HasTaken L n pc x ∨ ∃ i k flags, pc = .takeStore i k flags ∧ x = pageDesc L k := by
  cases pc with
  | scan i =>
      simp only [mallocStep] at hx
      split at hx
      · exact absurd hx (hasTaken_checkAt hpos i i x)
      · exact absurd hx (hasTaken_scanAt _ x)
  | check i j =>
      simp only [mallocStep] at hx
      split at hx
      · exact absurd hx (hasTaken_checkAt hpos i _ x)
      · exact absurd hx (hasTaken_scanAt _ x)
  | takeLoad i k => exact Or.inl hx
  | takeStore i k flags =>
      obtain ⟨-, hik, hkn, -⟩ := hok
      -- The store of this iteration is the one that makes the set grow.
      rcases (hasTaken_takeAt_succ hn hik hkn x).mp hx with hold | hnew
      · exact Or.inl hold
      · exact Or.inr ⟨i, k, flags, rfl, hnew⟩
  | lastLoad i => exact Or.inl hx
  | lastStore i flags => exact Or.inl hx
  | done block => exact Or.inl hx

/-- Every page of a block was free at the start, once its call has settled
on it. -/
theorem freeRun_of_claim {i : Nat} (hok : CallOk L h n pc) (hclaim : claimOf pc = some i) :
    i < (h.numPages - BitVec.ofNat 32 n).toNat ∧ FreeRun h.mem (pageDesc L i) n := by
  cases pc with
  -- While it searches, a call has no claim.
  | scan i => simp [claimOf] at hclaim
  | check i j => simp [claimOf] at hclaim
  | takeLoad i' k =>
      obtain rfl := Option.some.inj hclaim
      exact ⟨hok.1, hok.2.2.2⟩
  | takeStore i' k flags =>
      obtain rfl := Option.some.inj hclaim
      exact ⟨hok.1, hok.2.2.2.1⟩
  | lastLoad i' =>
      obtain rfl := Option.some.inj hclaim
      exact hok
  | lastStore i' flags =>
      obtain rfl := Option.some.inj hclaim
      exact ⟨hok.1, hok.2.1⟩
  | done block =>
      obtain rfl : block = some i := hclaim
      exact hok

end Call

/-! ### The bytes of a block -/

/-- A descriptor of the block that a call has settled on. -/
def InClaim (L : HeapLayout) (n : Nat) (pc : MallocPc) (x : Addr) : Prop :=
  ∃ i, claimOf pc = some i ∧ InRange (pageDesc L i) n x

/-- The descriptors of the block that was settled on. -/
theorem inClaim_iff {L : HeapLayout} {n i : Nat} {pc : MallocPc} (hclaim : claimOf pc = some i)
    (x : Addr) : InClaim L n pc x ↔ InRange (pageDesc L i) n x := by
  simp [InClaim, hclaim]

/-- The pages that a call has taken lie in its block. -/
theorem inClaim_of_hasTaken {L : HeapLayout} {h : Heap} {n : Nat} {pc : MallocPc}
    (hok : CallOk L h n pc) {x : Addr} (hx : HasTaken L n pc x) : InClaim L n pc x := by
  cases pc with
  | scan i => exact absurd hx not_false
  | check i j => exact absurd hx not_false
  | takeLoad i k =>
      obtain ⟨-, hik, hkn, -⟩ := hok
      exact ⟨i, rfl, InRange.mono hx (by omega)⟩
  | takeStore i k flags =>
      obtain ⟨-, hik, hkn, -⟩ := hok
      exact ⟨i, rfl, InRange.mono hx (by omega)⟩
  | lastLoad i => exact ⟨i, rfl, hx⟩
  | lastStore i flags => exact ⟨i, rfl, hx⟩
  | done block =>
      cases block with
      | none => exact absurd hx not_false
      | some i => exact ⟨i, rfl, hx⟩

instance (L : HeapLayout) (n : Nat) (pc : MallocPc) (x : Addr) :
    Decidable (HasTaken L n pc x) :=
  match pc with
  | .takeLoad i k => inferInstanceAs (Decidable (InRange (pageDesc L i) (k - i) x))
  | .takeStore i k _ => inferInstanceAs (Decidable (InRange (pageDesc L i) (k - i) x))
  | .lastLoad i => inferInstanceAs (Decidable (InRange (pageDesc L i) n x))
  | .lastStore i _ => inferInstanceAs (Decidable (InRange (pageDesc L i) n x))
  | .done (some i) => inferInstanceAs (Decidable (InRange (pageDesc L i) n x))
  | .scan _ => inferInstanceAs (Decidable False)
  | .check _ _ => inferInstanceAs (Decidable False)
  | .done none => inferInstanceAs (Decidable False)

/-- The flag that the last store of a call adds. -/
def lastFlag (L : HeapLayout) (n : Nat) : MallocPc → Addr → Byte
  | .done (some i), x => if x = pageDesc L (i + n - 1) then pageLast else 0#8
  | _, _ => 0#8

/-- The flags that a call has set. -/
def setFlags (L : HeapLayout) (n : Nat) (pc : MallocPc) (x : Addr) : Byte :=
  (if HasTaken L n pc x then pageTaken else 0#8) ||| lastFlag L n pc x

/-- The byte a call is about to store is the one from its start, with the
flags it has set since. -/
def CallExact (L : HeapLayout) (h : Heap) (n : Nat) : MallocPc → Prop
  | .takeStore _ k flags => flags = h.mem (pageDesc L k) ||| pageTaken
  | .lastStore i flags => flags = h.mem (pageDesc L (i + n - 1)) ||| pageTaken ||| pageLast
  | _ => True

section Bytes

variable {L : HeapLayout} {h : Heap} {n : Nat}

/-- The scan has not set `PAGE_LAST`. -/
@[simp] theorem lastFlag_scanAt (i : Nat) (x : Addr) : lastFlag L n (scanAt h n i) x = 0#8 := by
  unfold scanAt
  split <;> rfl

/-- The loop over the block has not set `PAGE_LAST`. -/
@[simp] theorem lastFlag_takeAt (i k : Nat) (x : Addr) : lastFlag L n (takeAt n i k) x = 0#8 := by
  unfold takeAt
  split <;> rfl

/-- The check of a run has not set `PAGE_LAST`. -/
@[simp] theorem lastFlag_checkAt (i j : Nat) (x : Addr) :
    lastFlag L n (checkAt n i j) x = 0#8 := by
  unfold checkAt
  split
  · rfl
  · exact lastFlag_takeAt i i x

/-- There is no byte at hand at the test over `i`. -/
theorem callExact_scanAt (i : Nat) : CallExact L h n (scanAt h n i) := by
  unfold scanAt
  split <;> trivial

/-- There is no byte at hand at the test over `k`. -/
theorem callExact_takeAt (i k : Nat) : CallExact L h n (takeAt n i k) := by
  unfold takeAt
  split <;> trivial

/-- There is no byte at hand at the test over `j`. -/
theorem callExact_checkAt (i j : Nat) : CallExact L h n (checkAt n i j) := by
  unfold checkAt
  split
  · trivial
  · exact callExact_takeAt i i

/-- The housekeeping of `malloc` ors the flags of a finished call. -/
theorem mallocMark_eq_or (m : Mem) (hpos : 0 < n) (hn : n < 2 ^ 32) (i : Nat) (x : Addr) :
    mallocMark m n (pageDesc L i) x = m x ||| setFlags L n (.done (some i)) x := by
  obtain ⟨k, hk, rfl⟩ := exists_offset (pageDesc L i) x
  have hlast : pageDesc L i + BitVec.ofNat 32 k = pageDesc L (i + n - 1) ↔ k + 1 = n := by
    have hdesc : pageDesc L (i + n - 1) = pageDesc L i + BitVec.ofNat 32 (n - 1) := by
      rw [pageDesc_add, Nat.add_sub_assoc hpos]
    rw [hdesc, add_ofNat_inj _ hk (by omega)]
    omega
  rw [mallocMark_apply m _ hpos (by omega) hk]
  simp only [setFlags, HasTaken, lastFlag, inRange_add_ofNat _ hk, hlast]
  -- Inside of the block, its last page, and outside.
  by_cases hin : k + 1 < n
  · have hkn : k < n := by omega
    have hne : ¬ k + 1 = n := by omega
    simp [hin, hkn, hne]
  · by_cases heq : k + 1 = n
    · have hkn : k < n := by omega
      simp [heq, hkn, BitVec.or_assoc]
    · have hkn : ¬ k < n := by omega
      simp [hin, heq, hkn]

variable {m : Mem} {pc : MallocPc}

/-- An access writes no byte outside of the block of its call. -/
theorem frame_step (hpos : 0 < n) (hn : n < 2 ^ 32) (hok : CallOk L h n pc) {x : Addr}
    (hx : ¬ InClaim L n pc x) : (mallocStep L h n m pc).1 x = m x := by
  cases pc with
  | scan i => rfl
  | check i j => rfl
  | takeLoad i k => rfl
  | takeStore i k flags =>
      obtain ⟨-, hik, hkn, -⟩ := hok
      refine store8_of_ne m _ fun heq => hx ⟨i, rfl, ?_⟩
      rw [heq, pagePtr_eq, inRange_pageDesc hik (by omega)]
      omega
  | lastLoad i => rfl
  | lastStore i flags =>
      refine store8_of_ne m _ fun heq => hx ⟨i, rfl, ?_⟩
      rw [heq, lastPtr_eq L i hpos, inRange_pageDesc (by omega) (by omega)]
      omega
  | done block => rfl

/-- A call that goes on searching, or that has just settled on a block, has
set no flag. -/
theorem exact_search (hpos : 0 < n) {pc' : MallocPc} (hclaim : claimOf pc = none)
    (hpc : (∃ i, pc' = scanAt h n i) ∨ ∃ i j, pc' = checkAt n i j)
    (hnew : ∀ x, InClaim L n pc' x → ¬ InClaim L n pc x → m x = h.mem x) :
    CallExact L h n pc' ∧ ∀ x, InClaim L n pc' x → m x = h.mem x ||| setFlags L n pc' x := by
  have hnone : ∀ x, ¬ InClaim L n pc x := by
    rintro x ⟨i, hi, -⟩
    simp [hclaim] at hi
  rcases hpc with ⟨i, rfl⟩ | ⟨i, j, rfl⟩
  · refine ⟨callExact_scanAt i, fun x hx => ?_⟩
    simp [hnew x hx (hnone x), setFlags]
  · refine ⟨callExact_checkAt i j, fun x hx => ?_⟩
    simp [hnew x hx (hnone x), setFlags, hasTaken_checkAt hpos]

/-- A call that alone writes its block keeps the block exact: each byte is
the one from the start with the flags the call has set. -/
theorem exact_step (hpos : 0 < n) (hn : n < 2 ^ 32) (hok : CallOk L h n pc)
    (hexact : CallExact L h n pc)
    (hmem : ∀ x, InClaim L n pc x → m x = h.mem x ||| setFlags L n pc x)
    (hnew : ∀ x, InClaim L n (mallocStep L h n m pc).2 x → ¬ InClaim L n pc x →
      m x = h.mem x) :
    CallExact L h n (mallocStep L h n m pc).2 ∧
    ∀ x, InClaim L n (mallocStep L h n m pc).2 x →
      (mallocStep L h n m pc).1 x = h.mem x ||| setFlags L n (mallocStep L h n m pc).2 x := by
  cases pc with
  | scan i =>
      refine exact_search hpos rfl ?_ hnew
      simp only [mallocStep]
      split
      · exact Or.inr ⟨i, i, rfl⟩
      · exact Or.inl ⟨i + 1, rfl⟩
  | check i j =>
      refine exact_search hpos rfl ?_ hnew
      simp only [mallocStep]
      split
      · exact Or.inr ⟨i, j + 1, rfl⟩
      · exact Or.inl ⟨i + 1, rfl⟩
  | takeLoad i k =>
      obtain ⟨-, hik, hkn, -⟩ := hok
      refine ⟨?_, hmem⟩
      -- The page is in the block, and the call has not taken it yet.
      have hpage := hmem (pageDesc L k)
        ⟨i, rfl, (inRange_pageDesc hik (by omega)).mpr (by omega)⟩
      have hnot : ¬ HasTaken L n (.takeLoad i k) (pageDesc L k) := by
        show ¬ InRange _ _ _
        rw [inRange_pageDesc hik (by omega)]
        omega
      simp [setFlags, hnot, lastFlag] at hpage
      simp [mallocStep, CallExact, hpage]
  | takeStore i k flags =>
      obtain ⟨-, hik, hkn, -⟩ := hok
      refine ⟨callExact_takeAt i (k + 1), fun x hx => ?_⟩
      have hclaim : InClaim L n (.takeStore i k flags) x :=
        (inClaim_iff rfl x).mpr ((inClaim_iff (claim_takeAt i (k + 1)) x).mp hx)
      have hold : HasTaken L n (.takeStore i k flags) x ↔ InRange (pageDesc L i) (k - i) x :=
        Iff.rfl
      have hmemx := hmem x hclaim
      simp only [setFlags, hold, lastFlag] at hmemx
      simp only [mallocStep, pagePtr_eq, setFlags, hasTaken_takeAt_succ hn hik hkn,
        lastFlag_takeAt]
      by_cases heq : x = pageDesc L k
      · have hflags : flags = h.mem (pageDesc L k) ||| pageTaken := hexact
        simp [heq, hflags]
      · simp only [heq, or_false]
        rw [store8_of_ne m _ heq, hmemx]
  | lastLoad i =>
      refine ⟨?_, hmem⟩
      have hlast : InRange (pageDesc L i) n (pageDesc L (i + n - 1)) :=
        (inRange_pageDesc (by omega) (by omega)).mpr (by omega)
      have hpage := hmem _ ⟨i, rfl, hlast⟩
      have htaken : HasTaken L n (.lastLoad i) (pageDesc L (i + n - 1)) := hlast
      simp [setFlags, htaken, lastFlag] at hpage
      show m (pagePtr L (i + n) - 1#32) ||| pageLast = _
      rw [lastPtr_eq L i hpos, hpage]
  | lastStore i flags =>
      refine ⟨trivial, fun x hx => ?_⟩
      have hin : InRange (pageDesc L i) n x := (inClaim_iff rfl x).mp hx
      have hmemx := hmem x ⟨i, rfl, hin⟩
      have hbefore : HasTaken L n (.lastStore i flags) x := hin
      have hafter : HasTaken L n (.done (some i)) x := hin
      simp only [setFlags, hbefore, lastFlag, if_true] at hmemx
      simp only [mallocStep, lastPtr_eq L i hpos, setFlags, hafter, lastFlag, if_true]
      by_cases heq : x = pageDesc L (i + n - 1)
      · have hflags : flags = h.mem (pageDesc L (i + n - 1)) ||| pageTaken ||| pageLast := hexact
        simp [heq, hflags, BitVec.or_assoc]
      · rw [store8_of_ne m _ heq, if_neg heq, hmemx]
  | done block => exact ⟨trivial, hmem⟩

end Bytes

/-! ### Two calls -/

/-- The invariant of the pair: what each call knows, and which descriptors
are taken. -/
structure PairInv (L : HeapLayout) (h : Heap) (size : Bool → Word) (s : MallocPair) : Prop where
  call : ∀ t, CallOk L h (pageNum (size t)).toNat (s.pc t)
  taken : ∀ x, isFree s.mem x = false ↔
    isFree h.mem x = false ∨ ∃ t, HasTaken L (pageNum (size t)).toNat (s.pc t) x

/-- The blocks that the two calls have settled on share no page. -/
def Separate (L : HeapLayout) (size : Bool → Word) (s : MallocPair) : Prop :=
  ∀ t u, t ≠ u → ∀ x, InClaim L (pageNum (size t)).toNat (s.pc t) x →
    ¬ InClaim L (pageNum (size u)).toNat (s.pc u) x

/-- A step that stores `PAGE_TAKEN` finds the descriptor still free. -/
def FindsFree (L : HeapLayout) (s : MallocPair) (t : Bool) : Prop :=
  ∀ i k flags, s.pc t = .takeStore i k flags → isFree s.mem (pageDesc L k) = true

section Pair

variable {L : HeapLayout} {h : Heap} {size : Bool → Word} {s s' : MallocPair} {t : Bool}

/-- What a call has taken is taken in the memory. -/
theorem PairInv.own (hinv : PairInv L h size s) {x : Addr}
    (hx : HasTaken L (pageNum (size t)).toNat (s.pc t) x) : isFree s.mem x = false :=
  (hinv.taken x).mpr (Or.inr ⟨t, hx⟩)

/-- A page that is free now was free at the start. -/
theorem PairInv.free (hinv : PairInv L h size s) {x : Addr} (hx : isFree s.mem x = true) :
    isFree h.mem x = true := by
  by_contra htaken
  have := (hinv.taken x).mpr (Or.inl (by simpa using htaken))
  simp [hx] at this

/-- A step moves one call and leaves the other where it is. -/
theorem pair_step (hstep : (twoMallocs L h size).step s t s') :
    s'.mem = (mallocStep L h (pageNum (size t)).toNat s.mem (s.pc t)).1 ∧
    s'.pc t = (mallocStep L h (pageNum (size t)).toNat s.mem (s.pc t)).2 ∧
    ∀ u, u ≠ t → s'.pc u = s.pc u := by
  obtain ⟨-, rfl⟩ := hstep
  exact ⟨rfl, Function.update_self .., fun u hu => Function.update_of_ne hu ..⟩

/-- The invariant holds before the two calls. -/
theorem pairInv_init : PairInv L h size
    ⟨h.mem, fun t => scanAt h (pageNum (size t)).toNat 0⟩ where
  call t := callOk_scanAt 0
  taken x := by simp

/-- The step lemma of the pair. -/
theorem PairInv.step (hinv : PairInv L h size s) (hstep : (twoMallocs L h size).step s t s') :
    PairInv L h size s' := by
  obtain ⟨hmem, hpc, hother⟩ := pair_step hstep
  have hpos := pageNum_pos (size t)
  have hn := (pageNum (size t)).isLt
  refine ⟨fun u => ?_, fun x => ?_⟩
  · by_cases hu : u = t
    · rw [hu, hpc]
      exact callOk_step hpos hn (hinv.call t) (fun _ => hinv.free) fun _ => hinv.own
    · rw [hother u hu]
      exact hinv.call u
  · have htaken := taken_step hpos hn (hinv.call t) (fun _ => hinv.own) x
    -- What the call that moves has taken before it still has.
    have hkeep : HasTaken L (pageNum (size t)).toNat (s.pc t) x →
        HasTaken L (pageNum (size t)).toNat (s'.pc t) x := by
      rw [hpc]
      exact hasTaken_step hn (hinv.call t)
    rw [← hmem, ← hpc, hinv.taken x] at htaken
    rw [htaken]
    constructor
    · rintro ((hold | ⟨u, hu⟩) | hnew)
      · -- A taken page is one from the start, of this call or of the other one.
        exact Or.inl hold
      · by_cases hut : u = t
        · subst hut
          exact Or.inr ⟨u, hkeep hu⟩
        · exact Or.inr ⟨u, by rwa [hother u hut]⟩
      · exact Or.inr ⟨t, hnew⟩
    · rintro (hold | ⟨u, hu⟩)
      · exact Or.inl (Or.inl hold)
      · by_cases hut : u = t
        · subst hut
          exact Or.inr hu
        · exact Or.inl (Or.inr ⟨u, by rwa [hother u hut] at hu⟩)

/-- A call keeps the block it has settled on to the end of the run. -/
theorem claim_run {es : List Bool} (hrun : (twoMallocs L h size).Run s es s') {u : Bool} {i : Nat}
    (hclaim : claimOf (s.pc u) = some i) : claimOf (s'.pc u) = some i := by
  refine hrun.preserves (I := fun s => claimOf (s.pc u) = some i) ?_ hclaim
  intro s t s' hi hstep
  obtain ⟨-, hpc, hother⟩ := pair_step hstep
  by_cases hut : u = t
  · subst hut
    rw [hpc]
    exact claim_step hi
  · rwa [hother u hut]

/-- So blocks that are separate at the end were separate before. -/
theorem Separate.of_run {es : List Bool} (hsep : Separate L size s')
    (hrun : (twoMallocs L h size).Run s es s') : Separate L size s := by
  rintro t u hne x ⟨i, hi, hxi⟩ ⟨j, hj, hxj⟩
  exact hsep t u hne x ⟨i, claim_run hrun hi, hxi⟩ ⟨j, claim_run hrun hj, hxj⟩

/-- No page is taken by both calls when each store of `PAGE_TAKEN` finds its
descriptor free. -/
theorem notBoth_step (hinv : PairInv L h size s)
    (hnot : ∀ t u, t ≠ u → ∀ x, HasTaken L (pageNum (size t)).toNat (s.pc t) x →
      ¬ HasTaken L (pageNum (size u)).toNat (s.pc u) x)
    (hfree : FindsFree L s t) (hstep : (twoMallocs L h size).step s t s') :
    ∀ t u, t ≠ u → ∀ x, HasTaken L (pageNum (size t)).toNat (s'.pc t) x →
      ¬ HasTaken L (pageNum (size u)).toNat (s'.pc u) x := by
  obtain ⟨-, hpc, hother⟩ := pair_step hstep
  have hone : ∀ u, u ≠ t → ∀ x, HasTaken L (pageNum (size t)).toNat (s'.pc t) x →
      ¬ HasTaken L (pageNum (size u)).toNat (s.pc u) x := by
    intro u hu x hx hxu
    rw [hpc] at hx
    rcases hasTaken_new (pageNum_pos _) (pageNum _).isLt (hinv.call t) hx
      with hold | ⟨i, k, flags, hat, rfl⟩
    · exact hnot t u hu.symm x hold hxu
    · -- The store found the page free, so the other call has not taken it.
      have := hinv.own hxu
      simp [hfree i k flags hat] at this
  intro v u hne x hxv hxu
  by_cases hv : v = t
  · subst hv
    rw [hother u hne.symm] at hxu
    exact hone u hne.symm x hxv hxu
  · by_cases hu : u = t
    · subst hu
      rw [hother v hv] at hxv
      exact hone v hv x hxu hxv
    · rw [hother v hv] at hxv
      rw [hother u hu] at hxu
      exact hnot v u hne x hxv hxu

end Pair

/-! ### The order of the two calls -/

/-- The memory after a call that settled on `block` and met no other call. -/
def marked (L : HeapLayout) (m : Mem) (n : Nat) : Option Nat → Mem
  | some i => mallocMark m n (pageDesc L i)
  | none => m

/-- The call has ruled out each start page that it passed, on the memory
`m`. -/
def Searched (L : HeapLayout) (h : Heap) (m : Mem) (n : Nat) (pc : MallocPc) : Prop :=
  ∀ l < searchedTo (h.numPages - BitVec.ofNat 32 n).toNat pc, ¬ FreeRun m (pageDesc L l) n

/-- Call `f` comes first: it settles on its block before the other one does,
and the other one searches the memory that `f` leaves. -/
structure Order (L : HeapLayout) (h : Heap) (size : Bool → Word) (s : MallocPair)
    (f u : Bool) : Prop where
  other : u ≠ f
  settles : claimOf (s.pc f) = none → claimOf (s.pc u) = none
  first : Searched L h h.mem (pageNum (size f)).toNat (s.pc f)
  second : Searched L h (marked L h.mem (pageNum (size f)).toNat (claimOf (s.pc f)))
    (pageNum (size u)).toNat (s.pc u)

/-- The task that is not `f` is `u`. -/
theorem Order.eq_other {L : HeapLayout} {h : Heap} {size : Bool → Word} {s : MallocPair}
    {f u v : Bool} (hord : Order L h size s f u) (hv : v ≠ f) : v = u :=
  (Bool.eq_not.mpr hv).trans (Bool.eq_not.mpr hord.other).symm

/-- The memory of the pair while the blocks are separate: each block is
exact, and the rest is as it was. -/
structure ExactInv (L : HeapLayout) (h : Heap) (size : Bool → Word) (s : MallocPair) : Prop where
  call : ∀ t, CallExact L h (pageNum (size t)).toNat (s.pc t)
  block : ∀ t x, InClaim L (pageNum (size t)).toNat (s.pc t) x →
    s.mem x = h.mem x ||| setFlags L (pageNum (size t)).toNat (s.pc t) x
  rest : ∀ x, (∀ t, ¬ InClaim L (pageNum (size t)).toNat (s.pc t) x) → s.mem x = h.mem x

section Serial

variable {L : HeapLayout} {h : Heap} {size : Bool → Word} {s s' : MallocPair} {t : Bool}

/-- After the call a page is free that was free before and is outside the block.
-/
theorem isFree_marked (m : Mem) {n : Nat} (hpos : 0 < n) (hn : n < 2 ^ 32) (block : Option Nat)
    (x : Addr) : isFree (marked L m n block) x = true
      ↔ isFree m x = true ∧ ∀ i, block = some i → ¬ InRange (pageDesc L i) n x := by
  cases block with
  | none => simp [marked]
  | some i =>
      rw [marked, isFree_mallocMark m _ hpos (by omega)]
      simp

/-- Each byte has the flags of the finished call added. -/
theorem marked_apply (m : Mem) {n : Nat} (hpos : 0 < n) (hn : n < 2 ^ 32) (block : Option Nat)
    (x : Addr) : marked L m n block x = m x ||| setFlags L n (.done block) x := by
  cases block with
  | none => simp [marked, setFlags, HasTaken, lastFlag]
  | some i => exact mallocMark_eq_or m hpos hn i x

/-- Outside of its block a call has set no flag. -/
theorem setFlags_done_of_not_inClaim {n : Nat} (hpos : 0 < n) (hn : n < 2 ^ 32)
    {block : Option Nat} {x : Addr} (hx : ¬ InClaim L n (.done block) x) :
    setFlags L n (.done block) x = 0#8 := by
  cases block with
  | none => simp [setFlags, HasTaken, lastFlag]
  | some i =>
      rw [inClaim_iff rfl] at hx
      have htaken : ¬ HasTaken L n (.done (some i)) x := hx
      have hlast : x ≠ pageDesc L (i + n - 1) := by
        rintro rfl
        rw [inRange_pageDesc (by omega) (by omega)] at hx
        omega
      simp [setFlags, htaken, lastFlag, hlast]

/-- A run of free pages in the memory of a finished call was one before. -/
theorem FreeRun.of_marked {m : Mem} {n k : Nat} (hpos : 0 < n) (hn : n < 2 ^ 32)
    {block : Option Nat} {page : Addr} (hrun : FreeRun (marked L m n block) page k) :
    FreeRun m page k :=
  fun i hi => ((isFree_marked m hpos hn block _).mp (hrun i hi)).1

/-- A turn of the search keeps what it has ruled out, when a page that is
taken in memory is taken in `m'`. -/
theorem Searched.step {n : Nat} {m m' : Mem} {pc : MallocPc} (hpos : 0 < n)
    (hok : CallOk L h n pc) (hsearched : Searched L h m' n pc)
    (htaken : claimOf pc = none → ∀ x, isFree m x = false → isFree m' x = false) :
    Searched L h m' n (mallocStep L h n m pc).2 := by
  intro l hl hrun
  rcases searched_step (m := m) hpos hok with heq | ⟨hclaim, hle, k, hk, hpage⟩
  · rw [heq] at hl
    exact hsearched l hl hrun
  · rcases Nat.lt_or_eq_of_le (Nat.le_of_lt_succ (Nat.lt_of_lt_of_le hl hle)) with hlt | rfl
    · exact hsearched l hlt hrun
    · -- The page that stopped the check is not free in `m'` either.
      have hfree := hrun k hk
      rw [pageDesc_add, htaken hclaim _ hpage] at hfree
      exact absurd hfree (by decide)

/-- A call without a block has taken nothing. -/
theorem PairInv.not_hasTaken (hinv : PairInv L h size s) {v : Bool}
    (hv : claimOf (s.pc v) = none) (x : Addr) :
    ¬ HasTaken L (pageNum (size v)).toNat (s.pc v) x := by
  intro hx
  obtain ⟨i, hi, -⟩ := inClaim_of_hasTaken (hinv.call v) hx
  simp [hv] at hi

namespace Order

variable {f u : Bool}

/-- While no call has settled on a block, the one that moves may as well be
the first. -/
theorem step_search (hord : Order L h size s f u) (hinv : PairInv L h size s)
    (hclaim : claimOf (s.pc f) = none) (hstep : (twoMallocs L h size).step s t s') :
    Order L h size s' t (!t) := by
  obtain ⟨-, hpc, hother⟩ := pair_step hstep
  -- Neither call has settled, so each has searched the memory of the start.
  have hboth : ∀ v, claimOf (s.pc v) = none := by
    intro v
    by_cases hv : v = f
    · rwa [hv]
    · rw [hord.eq_other hv]
      exact hord.settles hclaim
  have hsame : ∀ v, Searched L h h.mem (pageNum (size v)).toNat (s.pc v) := by
    intro v
    by_cases hv : v = f
    · rw [hv]
      exact hord.first
    · have hsecond := hord.second
      rw [hclaim] at hsecond
      rw [hord.eq_other hv]
      exact hsecond
  have hne : (!t) ≠ t := by cases t <;> decide
  refine ⟨hne, fun _ => ?_, ?_, ?_⟩
  · rw [hother _ hne]
    exact hboth _
  · rw [hpc]
    refine (hsame t).step (pageNum_pos (size t)) (hinv.call t) fun _ x hx => ?_
    -- A page that is taken was so from the start: nobody has marked any.
    rcases (hinv.taken x).mp hx with hold | ⟨v, hv⟩
    · exact hold
    · exact absurd hv (hinv.not_hasTaken (hboth v) x)
  · rw [hother _ hne]
    exact fun l hl hrun =>
      hsame _ l hl (hrun.of_marked (pageNum_pos (size t)) (pageNum (size t)).isLt)

/-- The first call moves on with its block. -/
theorem step_first (hord : Order L h size s t u) (hinv : PairInv L h size s) {i : Nat}
    (hclaim : claimOf (s.pc t) = some i) (hstep : (twoMallocs L h size).step s t s') :
    Order L h size s' t u := by
  obtain ⟨-, hpc, hother⟩ := pair_step hstep
  have hkeep : claimOf (s'.pc t) = claimOf (s.pc t) := by
    rw [hpc, hclaim]
    exact claim_step hclaim
  refine ⟨hord.other, fun h => ?_, ?_, ?_⟩
  · rw [hkeep, hclaim] at h
    cases h
  · rw [hpc]
    refine hord.first.step (pageNum_pos (size t)) (hinv.call t) fun h => ?_
    rw [hclaim] at h
    cases h
  · rw [hkeep, hother u hord.other]
    exact hord.second

/-- The second call moves. What it meets is from the start or from the
first. -/
theorem step_second (hord : Order L h size s f t) (hinv : PairInv L h size s) {i : Nat}
    (hclaim : claimOf (s.pc f) = some i) (hstep : (twoMallocs L h size).step s t s') :
    Order L h size s' f t := by
  obtain ⟨-, hpc, hother⟩ := pair_step hstep
  have hf := hother f hord.other.symm
  -- The first call stands still, so it keeps its claim.
  refine ⟨hord.other, fun h => ?_, ?_, ?_⟩
  · rw [hf, hclaim] at h
    cases h
  · rw [hf]
    exact hord.first
  · rw [hf, hpc]
    -- What the second call finds taken is taken at the start or lies in the claim
    -- of the first.
    refine hord.second.step (pageNum_pos (size t)) (hinv.call t) fun hcl x hx => ?_
    rw [← Bool.not_eq_true, isFree_marked _ (pageNum_pos (size f)) (pageNum (size f)).isLt]
    rintro ⟨hfree, hout⟩
    rcases (hinv.taken x).mp hx with hold | ⟨v, hv⟩
    · simp [hfree] at hold
    · by_cases hvf : v = f
      · subst hvf
        obtain ⟨j, hj, hin⟩ := inClaim_of_hasTaken (hinv.call v) hv
        exact hout j hj hin
      · obtain rfl := hord.eq_other hvf
        exact hinv.not_hasTaken hcl x hv

end Order

/-- The step lemma of the order. -/
theorem order_step (hinv : PairInv L h size s) (horder : ∃ f u, Order L h size s f u)
    (hstep : (twoMallocs L h size).step s t s') : ∃ f u, Order L h size s' f u := by
  obtain ⟨f, u, hord⟩ := horder
  cases hclaim : claimOf (s.pc f) with
  | none => exact ⟨t, !t, hord.step_search hinv hclaim hstep⟩
  | some i =>
      by_cases htf : t = f
      · subst htf
        exact ⟨t, u, hord.step_first hinv hclaim hstep⟩
      · obtain rfl := hord.eq_other htf
        exact ⟨f, t, hord.step_second hinv hclaim hstep⟩

/-- The step lemma of the memory: the call that moves owns its block alone. -/
theorem ExactInv.step (hex : ExactInv L h size s) (hinv : PairInv L h size s)
    (hstep : (twoMallocs L h size).step s t s') (hsep : Separate L size s') :
    ExactInv L h size s' := by
  obtain ⟨hmem, hpc, hother⟩ := pair_step hstep
  have hpos := pageNum_pos (size t)
  have hn := (pageNum (size t)).isLt
  have hok := hinv.call t
  have hsep0 : Separate L size s := hsep.of_run (System.Run.single hstep)
  have hgrow : ∀ x, InClaim L (pageNum (size t)).toNat (s.pc t) x →
      InClaim L (pageNum (size t)).toNat (s'.pc t) x := by
    rintro x ⟨i, hi, hx⟩
    exact ⟨i, by rw [hpc]; exact claim_step hi, hx⟩
  -- A page that the call is about to claim belongs to no block yet.
  have hnew : ∀ x, InClaim L (pageNum (size t)).toNat (s'.pc t) x →
      ¬ InClaim L (pageNum (size t)).toNat (s.pc t) x → s.mem x = h.mem x := by
    intro x hx hnot
    refine hex.rest x fun u hu => ?_
    by_cases hut : u = t
    · subst hut
      exact hnot hu
    · exact hsep t u (Ne.symm hut) x hx (by rwa [hother u hut])
  rw [hpc] at hnew
  obtain ⟨hcall, hblock⟩ := exact_step hpos hn hok (hex.call t) (hex.block t) hnew
  rw [← hpc] at hcall hblock
  rw [← hmem] at hblock
  refine ⟨fun u => ?_, fun u x hx => ?_, fun x hx => ?_⟩
  · by_cases hut : u = t
    · rwa [hut]
    · rw [hother u hut]
      exact hex.call u
  · by_cases hut : u = t
    · subst hut
      exact hblock x hx
    · -- The block of the other call is not touched.
      have hx' := hx
      rw [hother u hut] at hx'
      have hout : ¬ InClaim L (pageNum (size t)).toNat (s.pc t) x :=
        hsep0 u t hut x hx'
      rw [hmem, frame_step hpos hn hok hout, hother u hut]
      exact hex.block u x hx'
  · have hrest : ∀ u, ¬ InClaim L (pageNum (size u)).toNat (s.pc u) x := by
      intro u hu
      by_cases hut : u = t
      · subst hut
        exact hx u (hgrow x hu)
      · exact hx u (by rwa [hother u hut])
    rw [hmem, frame_step hpos hn hok (hrest t)]
    exact hex.rest x hrest

/-- The start of the two calls. -/
def startPair (h : Heap) (size : Bool → Word) : MallocPair :=
  ⟨h.mem, fun t => scanAt h (pageNum (size t)).toNat 0⟩

/-- The invariant holds along every run. -/
theorem pairInv_run {es : List Bool} (hrun : (twoMallocs L h size).Run (startPair h size) es s) :
    PairInv L h size s :=
  hrun.preserves (fun _ _ _ hinv hstep => hinv.step hstep) pairInv_init

/-- In every run one of the calls comes first. -/
theorem order_run {es : List Bool} (hrun : (twoMallocs L h size).Run (startPair h size) es s) :
    ∃ f u, Order L h size s f u := by
  have hnone : ∀ t, Searched L h h.mem (pageNum (size t)).toNat ((startPair h size).pc t) :=
    fun t l hl => absurd (Nat.lt_of_lt_of_le hl (searched_scanAt 0)) (Nat.not_lt_zero l)
  refine (hrun.preserves (I := fun s => PairInv L h size s ∧ ∃ f u, Order L h size s f u)
    (fun _ _ _ hi hstep => ⟨hi.1.step hstep, order_step hi.1 hi.2 hstep⟩)
    ⟨pairInv_init, true, false, by decide, fun _ => ?_, hnone true, ?_⟩).2
  · simp [startPair]
  · have hstart : claimOf ((startPair h size).pc true) = none := claim_scanAt 0
    rw [hstart]
    exact hnone false

/-- The run lemma of the memory, by induction on the run: blocks that are
separate at its end are separate in each of its states. -/
theorem exactInv_run {es : List Bool} (hrun : (twoMallocs L h size).Run (startPair h size) es s)
    (hsep : Separate L size s) : ExactInv L h size s := by
  induction hrun with
  | nil =>
      refine ⟨fun t => callExact_scanAt 0, ?_, fun x _ => rfl⟩
      rintro t x ⟨i, hi, -⟩
      simp [startPair] at hi
  | snoc hrun hstep ih =>
      exact (ih (hsep.of_run (System.Run.single hstep))).step (pairInv_run hrun) hstep hsep

/-- A call that has finished has found what `malloc` finds on a memory where
its search holds. -/
theorem malloc_of_searched {h : Heap} {size : Word} {block : Option Nat}
    (hsearched : Searched L h h.mem (pageNum size).toNat (.done block))
    (hblock : ∀ i, block = some i → i < startPages h size ∧
      FreeRun h.mem (pageDesc L i) (pageNum size).toNat) :
    (malloc L h size).1 = { h with mem := marked L h.mem (pageNum size).toNat block } := by
  cases block with
  | none => rw [malloc_of_none L h rfl (pageNum_pos size) hsearched, marked]
  | some i =>
      obtain ⟨hi, hrun⟩ := hblock i rfl
      rw [malloc_of_first L h rfl (pageNum_pos size) hi hrun hsearched]
      rfl

/-- Two finished calls with separate blocks leave the memory of the two
calls in their order. -/
theorem serial_of_separate (hinv : PairInv L h size s) (hex : ExactInv L h size s)
    (hsep : Separate L size s) {f u : Bool} (hord : Order L h size s f u)
    (hdone : ∀ t, ∃ block, s.pc t = .done block) :
    s.mem = (malloc L (malloc L h (size f)).1 (size u)).1.mem := by
  have hpos := fun t => pageNum_pos (size t)
  have hn := fun t => (pageNum (size t)).isLt
  obtain ⟨bf, hbf⟩ := hdone f
  obtain ⟨bu, hbu⟩ := hdone u
  have hokf := hinv.call f
  have hoku := hinv.call u
  have hfirst := hord.first
  have hsecond := hord.second
  have hne := hord.other
  rw [hbf] at hokf hfirst hsecond
  rw [hbu] at hoku hsecond
  -- The first call, and then the second one on the memory it leaves.
  have hmalloc := malloc_of_searched hfirst fun i hi =>
    freeRun_of_claim hokf (by rw [hi]; rfl)
  have hmalloc' := malloc_of_searched
    (h := { h with mem := marked L h.mem (pageNum (size f)).toNat bf }) hsecond
    fun j hj => by
      obtain ⟨hlt, hrun⟩ := freeRun_of_claim (i := j) hoku (by rw [hj]; rfl)
      refine ⟨hlt, fun k hk => ?_⟩
      rw [isFree_marked _ (hpos f) (hn f)]
      refine ⟨hrun k hk, fun i hi hin => ?_⟩
      refine hsep f u hne.symm _ ⟨i, by rw [hbf, hi]; rfl, hin⟩ ⟨j, by rw [hbu, hj]; rfl, ?_⟩
      rwa [inRange_add_ofNat _ (by have := hn u; omega)]
  rw [hmalloc, hmalloc']
  funext x
  show s.mem x = marked L (marked L h.mem _ bf) _ bu x
  rw [marked_apply _ (hpos u) (hn u), marked_apply _ (hpos f) (hn f)]
  by_cases hxf : InClaim L (pageNum (size f)).toNat (s.pc f) x
  · have hxu := hsep f u hne.symm x hxf
    rw [hex.block f x hxf, hbf]
    rw [hbu] at hxu
    rw [setFlags_done_of_not_inClaim (hpos u) (hn u) hxu, BitVec.or_zero]
  · by_cases hxu : InClaim L (pageNum (size u)).toNat (s.pc u) x
    · rw [hex.block u x hxu, hbu]
      rw [hbf] at hxf
      rw [setFlags_done_of_not_inClaim (hpos f) (hn f) hxf, BitVec.or_zero]
    · have hnone : ∀ t, ¬ InClaim L (pageNum (size t)).toNat (s.pc t) x := by
        intro t
        by_cases ht : t = f
        · rwa [ht]
        · rwa [hord.eq_other ht]
      rw [hex.rest x hnone]
      rw [hbf] at hxf
      rw [hbu] at hxu
      rw [setFlags_done_of_not_inClaim (hpos f) (hn f) hxf,
        setFlags_done_of_not_inClaim (hpos u) (hn u) hxu]
      simp

end Serial

/-- What two calls of `malloc` leave when they have returned: disjoint
blocks, and the memory of the two calls in some order. -/
structure Serialised (L : HeapLayout) (h : Heap) (size : Bool → Word) (s : MallocPair) :
    Prop where
  disjoint : ∀ i j, s.pc true = .done (some i) → s.pc false = .done (some j) →
    ∀ x, InRange (pageDesc L i) (pageNum (size true)).toNat x →
      ¬ InRange (pageDesc L j) (pageNum (size false)).toNat x
  serial : s.mem = (malloc L (malloc L h (size true)).1 (size false)).1.mem ∨
    s.mem = (malloc L (malloc L h (size false)).1 (size true)).1.mem

section Finished

variable {L : HeapLayout} {h : Heap} {size : Bool → Word} {s : MallocPair}

/-- The call that moves decides the next state. -/
theorem twoMallocs_deterministic (s : MallocPair) (t : Bool) (s' s'' : MallocPair)
    (h' : (twoMallocs L h size).step s t s') (h'' : (twoMallocs L h size).step s t s'') :
    s' = s'' :=
  h'.2.trans h''.2.symm

/-- When both calls have returned, disjoint blocks are separate ones. -/
theorem separate_of_disjoint (hdone : ∀ t, ∃ block, s.pc t = .done block)
    (hdisj : ∀ i j, s.pc true = .done (some i) → s.pc false = .done (some j) →
      ∀ x, InRange (pageDesc L i) (pageNum (size true)).toNat x →
        ¬ InRange (pageDesc L j) (pageNum (size false)).toNat x) : Separate L size s := by
  have hclaim : ∀ t i, claimOf (s.pc t) = some i → s.pc t = .done (some i) := by
    intro t i hi
    obtain ⟨block, hblock⟩ := hdone t
    rw [hblock] at hi
    obtain rfl : block = some i := hi
    exact hblock
  rintro t u hne x ⟨i, hi, hxi⟩ ⟨j, hj, hxj⟩
  cases t with
  | true =>
      obtain rfl : u = false := by simpa using hne.symm
      exact hdisj i j (hclaim _ i hi) (hclaim _ j hj) x hxi hxj
  | false =>
      obtain rfl : u = true := by simpa using hne.symm
      exact hdisj j i (hclaim _ j hj) (hclaim _ i hi) x hxj hxi

/-- While the blocks are separate, a store of `PAGE_TAKEN` finds its
descriptor free. -/
theorem findsFree_of_separate (hinv : PairInv L h size s) (hsep : Separate L size s) (t : Bool) :
    FindsFree L s t := by
  intro i k flags hat
  have hn := (pageNum (size t)).isLt
  have hok := hinv.call t
  rw [hat] at hok
  obtain ⟨-, hik, hkn, hrun, -⟩ := hok
  have hclaim : InClaim L (pageNum (size t)).toNat (s.pc t) (pageDesc L k) := by
    rw [inClaim_iff (i := i) (by rw [hat]; rfl), inRange_pageDesc hik (by omega)]
    omega
  by_contra htaken
  rcases (hinv.taken _).mp (by simpa using htaken) with hold | ⟨u, hu⟩
  · -- The check found the page free, and it was free at the start.
    have hfree := hrun (k - i) (by omega)
    rw [pageDesc_add, Nat.add_sub_cancel' hik] at hfree
    simp [hfree] at hold
  · by_cases hut : u = t
    · -- The call has not come to this page yet.
      subst hut
      rw [hat] at hu
      have := (inRange_pageDesc hik (by omega)).mp hu
      omega
    · exact hsep t u (Ne.symm hut) _ hclaim (inClaim_of_hasTaken (hinv.call u) hu)

end Finished

/-- Two calls of `malloc` from any heap, for any sizes, in any order of their
accesses, run to their ends. They leave disjoint blocks and the memory of a
serial execution exactly when each store of `PAGE_TAKEN` of the run finds its
descriptor still free. -/
theorem twoMallocs_serial_iff (L : HeapLayout) (h : Heap) (size : Bool → Word)
    {s₀ s : MallocPair} {es : List Bool} (hinit : (twoMallocs L h size).init s₀)
    (hrun : (twoMallocs L h size).Run s₀ es s)
    (hdone : ∀ t, ∃ block, s.pc t = .done block) :
    Serialised L h size s ↔ System.Run.Allowed (twoMallocs L h size) (FindsFree L) s₀ es := by
  obtain rfl : s₀ = startPair h size := hinit
  constructor
  · intro hser
    have hsep := separate_of_disjoint hdone hser.disjoint
    refine System.Run.Allowed.of_steps twoMallocs_deterministic hrun ?_
    intro pre t post s₁ s₂ hpre hstep hrest
    exact findsFree_of_separate (pairInv_run hpre)
      ((hsep.of_run hrest).of_run (System.Run.single hstep)) t
  · intro hallowed
    have hboth := System.invariant_of_allowed (M := twoMallocs L h size)
      (I := fun s => PairInv L h size s ∧
        ∀ t u, t ≠ u → ∀ x, HasTaken L (pageNum (size t)).toNat (s.pc t) x →
          ¬ HasTaken L (pageNum (size u)).toNat (s.pc u) x)
      (fun s t s' hi hfree hstep => ⟨hi.1.step hstep, notBoth_step hi.1 hi.2 hfree hstep⟩)
      ⟨pairInv_init, fun t u _ x hx => absurd hx (hasTaken_scanAt 0 x)⟩ hrun hallowed
    -- A call that has returned has taken every page of its block.
    have hdisj : ∀ i j, s.pc true = .done (some i) → s.pc false = .done (some j) →
        ∀ x, InRange (pageDesc L i) (pageNum (size true)).toNat x →
          ¬ InRange (pageDesc L j) (pageNum (size false)).toNat x := by
      intro i j hi hj x hxi hxj
      refine hboth.2 true false (by decide) x ?_ ?_
      · rw [hi]
        exact hxi
      · rw [hj]
        exact hxj
    have hsep := separate_of_disjoint hdone hdisj
    obtain ⟨f, u, hord⟩ := order_run hrun
    have hserial := serial_of_separate hboth.1 (exactInv_run hrun hsep) hsep hord hdone
    refine ⟨hdisj, ?_⟩
    have hne := hord.other
    cases f with
    | true =>
        obtain rfl : u = false := by simpa using hne
        exact Or.inl hserial
    | false =>
        obtain rfl : u = true := by simpa using hne
        exact Or.inr hserial

/-! ### Runs of the pair -/

section Runs

variable (L : HeapLayout) (h : Heap) (size : Bool → Word)

/-- While one task runs alone, its call of `malloc` runs as on its own. -/
theorem pair_run_of_solo (t : Bool) {p q : Mem × MallocPc} {as : List Addr}
    (hrun : (mallocSystem L h (size t)).Run p as q) (s : MallocPair) (hmem : s.mem = p.1)
    (hpc : s.pc t = p.2) :
    ∃ es, (twoMallocs L h size).Run s es ⟨q.1, Function.update s.pc t q.2⟩ := by
  induction hrun with
  | nil =>
      refine ⟨[], ?_⟩
      rw [← hmem, ← hpc, Function.update_eq_self]
      exact System.Run.nil s
  | @snoc q r as a _ hstep ih =>
      obtain ⟨es, hes⟩ := ih
      refine ⟨es ++ [t], hes.snoc ⟨fun block hdone => ?_, ?_⟩⟩
      · have hdone : q.2 = .done block := by simpa using hdone
        have htouch := hstep.1
        rw [hdone] at htouch
        cases htouch
      · obtain rfl := hstep.2
        simp

/-- Two calls that do not overlap in time are a serial execution. -/
theorem twoMallocs_sequential :
    ∃ es s, (twoMallocs L h size).Run (startPair h size) es s ∧
      (∀ t, ∃ block, s.pc t = .done block) ∧
      s.mem = (malloc L (malloc L h (size true)).1 (size false)).1.mem := by
  obtain ⟨as, block, hfirst, -⟩ := malloc_run L h (size true) h.mem
  obtain ⟨es, hes⟩ := pair_run_of_solo L h size true hfirst (startPair h size) rfl rfl
  obtain ⟨bs, block', hsecond, -⟩ := malloc_run L h (size false) (malloc L h (size true)).1.mem
  obtain ⟨fs, hfs⟩ := pair_run_of_solo L h size false hsecond
    ⟨_, Function.update (startPair h size).pc true (.done block)⟩ rfl rfl
  have hstatics :
      { h with mem := (malloc L h (size true)).1.mem } = (malloc L h (size true)).1 := by
    rcases malloc_search L h rfl (pageNum_pos (size true)) with ⟨heq, -⟩ | ⟨i, -, -, -, heq⟩
    · rw [heq]
    · rw [heq]
  refine ⟨_, _, hes.append hfs, fun t => ?_, ?_⟩
  · cases t with
    | true => exact ⟨block, rfl⟩
    | false => exact ⟨block', rfl⟩
  · rw [← hstatics]

/-- Two calls that both find the same block and then both mark it: some order
of the accesses does that on every heap where their searches agree. -/
theorem twoMallocs_race {i : Nat} (hi : ∀ t, i < startPages h (size t))
    (hrun : ∀ t, FreeRun h.mem (pageDesc L i) (pageNum (size t)).toNat)
    (hfirst : ∀ t, ∀ l < i, ¬ FreeRun h.mem (pageDesc L l) (pageNum (size t)).toNat) :
    ∃ es s, (twoMallocs L h size).Run (startPair h size) es s ∧
      ∀ t, s.pc t = .done (some i) := by
  obtain ⟨as, htrue⟩ := settle_run L h (size true) h.mem (hi true) (hrun true) (hfirst true)
  obtain ⟨bs, hfalse⟩ := settle_run L h (size false) h.mem (hi false) (hrun false) (hfirst false)
  -- Both searches come first, then both markings.
  obtain ⟨es₁, h₁⟩ := pair_run_of_solo L h size true htrue (startPair h size) rfl rfl
  obtain ⟨es₂, h₂⟩ := pair_run_of_solo L h size false hfalse
    ⟨_, Function.update (startPair h size).pc true _⟩ rfl rfl
  obtain ⟨cs, hmark⟩ := mark_run L h (size true) h.mem i
  obtain ⟨es₃, h₃⟩ := pair_run_of_solo L h size true hmark
    ⟨_, Function.update (Function.update (startPair h size).pc true _) false _⟩ rfl rfl
  obtain ⟨ds, hmark'⟩ := mark_run L h (size false)
    (mallocMark h.mem (pageNum (size true)).toNat (pageDesc L i)) i
  obtain ⟨es₄, h₄⟩ := pair_run_of_solo L h size false hmark'
    ⟨_, Function.update (Function.update (Function.update (startPair h size).pc true _) false _)
      true _⟩ rfl rfl
  refine ⟨_, _, ((h₁.append h₂).append h₃).append h₄, fun t => ?_⟩
  cases t with
  | true => rfl
  | false => rfl

end Runs

/-- The main result at two calls that do not overlap in time. -/
theorem freshHeap_serial :
    ∃ es s, (twoMallocs readmeLayout freshHeap fun _ => 1#32).Run
        (startPair freshHeap fun _ => 1#32) es s ∧
      (Serialised readmeLayout freshHeap (fun _ => 1#32) s ↔
        System.Run.Allowed (twoMallocs readmeLayout freshHeap fun _ => 1#32)
          (FindsFree readmeLayout) (startPair freshHeap fun _ => 1#32) es) := by
  obtain ⟨es, s, hrun, hdone, -⟩ :=
    twoMallocs_sequential readmeLayout freshHeap fun _ => 1#32
  exact ⟨es, s, hrun, twoMallocs_serial_iff readmeLayout freshHeap _ rfl hrun hdone⟩

/-- On the fresh heap, two tasks that each ask for one byte can both get the
first page. -/
theorem freshHeap_race :
    (requestSystem readmeLayout).Reachable ⟨freshHeap, []⟩ ∧
    ∃ es s, (twoMallocs readmeLayout freshHeap fun _ => 1#32).Run
        (startPair freshHeap fun _ => 1#32) es s ∧
      s.pc true = .done (some 0) ∧ s.pc false = .done (some 0) ∧
      returned freshHeap (some 0) ≠ 0#32 ∧
      ¬ Serialised readmeLayout freshHeap (fun _ => 1#32) s := by
  have hpool : poolPages readmeLayout = 521967 := by decide
  have hnum : (pageNum 1#32).toNat = 1 := by decide
  have hbound : startPages freshHeap 1#32 = 521966 := by
    rw [startPages_eq freshHeap_statics (by omega), hnum, hpool]
  obtain ⟨es, s, hrun, hdone⟩ := twoMallocs_race readmeLayout freshHeap (fun _ => 1#32) (i := 0)
    (fun _ => by omega) (fun _ _ _ => isFree_pageInit_zero _ _) (by simp)
  refine ⟨System.Reachable.of_init ⟨_, rfl⟩, es, s, hrun, hdone true, hdone false, ?_,
    fun hser => ?_⟩
  · -- The first page is at the start of the pool, which is not NULL.
    rw [returned, allocStart_add readmeLayout freshHeap_statics]
    exact pageAddr_ne_zero readmeLayout (by omega)
  · -- Calls in turn give disjoint blocks, and these two have page 0 in common.
    have hin : InRange (pageDesc readmeLayout 0) (pageNum 1#32).toNat
        (pageDesc readmeLayout 0) := by decide
    exact hser.disjoint 0 0 (hdone true) (hdone false) _ hin hin

end MiniRiscvOs.Proofs
