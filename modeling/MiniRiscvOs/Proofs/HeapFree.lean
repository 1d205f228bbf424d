import MiniRiscvOs.Proofs.HeapRequests

/-!
# `MiniRiscvOs.Proofs.HeapFree`: `free` on a pointer outside of the pool

The guard of `free` stops `NULL` and every address from `_alloc_end` on. An
address below `_alloc_start` passes it. The page index is then a difference
that wraps, at least `0x780000`, and the walk starts on a byte that is no
descriptor.

`freeWalk_apply` says what the walk does to each byte of any memory, and
`free_outside_iff` reads off when the heap is kept: the walk must not reach
a taken byte of the heap.
-/

set_option autoImplicit false

namespace MiniRiscvOs.Proofs

open MiniRiscvOs.Lib
open MiniRiscvOs.Kernel

/-! ### The walk over any bytes -/

/-- The walk from `page` gets as far as offset `k`: each byte before it is
taken and not marked last. -/
def WalkReaches (m : Mem) (page : Addr) (k : Nat) : Prop :=
  ∀ l < k, isFree m (page + BitVec.ofNat 32 l) = false ∧
    isLast m (page + BitVec.ofNat 32 l) = false

instance (m : Mem) (page : Addr) (k : Nat) : Decidable (WalkReaches m page k) :=
  inferInstanceAs (Decidable (∀ l < k, _ ∧ _))

/-- A walk that gets to an offset gets to every smaller one. -/
theorem WalkReaches.mono {m : Mem} {page : Addr} {k l : Nat} (h : WalkReaches m page k)
    (hlk : l ≤ k) : WalkReaches m page l :=
  fun i hi => h i (Nat.lt_of_lt_of_le hi hlk)

/-- The part of the walk up to offset `k` clears the bytes before it. -/
theorem freeWalk_run (k : Nat) (hk : k ≤ 2 ^ 32) :
    ∀ (fuel : Nat) (m : Mem) (page : Addr), WalkReaches m page k →
      freeWalk (k + fuel) m page
        = freeWalk fuel (mapRange (fun _ => 0#8) m page k) (page + BitVec.ofNat 32 k) := by
  induction k with
  | zero =>
      intro fuel m page _
      simp
  | succ k ih =>
      intro fuel m page hreach
      have h0 := hreach 0 (by omega)
      rw [add_ofNat_zero] at h0
      -- The bytes ahead are those the first step leaves alone.
      have hkeep : ∀ l < k, clear m page (page + 1#32 + BitVec.ofNat 32 l)
          = m (page + BitVec.ofNat 32 (l + 1)) := by
        intro l hl
        rw [add_one_add_ofNat]
        refine store8_of_ne m _ fun h => ?_
        rw [← add_ofNat_zero page, add_ofNat_add,
          add_ofNat_inj page (by omega) (by decide : 0 < 2 ^ 32)] at h
        omega
      have hrest : WalkReaches (clear m page) (page + 1#32) k := by
        intro l hl
        simp only [isFree, isLast, hkeep l hl]
        exact hreach (l + 1) (by omega)
      have hfuel : k + 1 + fuel = (k + fuel) + 1 := by omega
      rw [hfuel]
      show (if isFree m page then some m
        else if isLast m page then some (clear m page)
        else freeWalk (k + fuel) (clear m page) (page + 1#32)) = _
      rw [h0.1, h0.2, if_neg (by decide), if_neg (by decide), ih (by omega) _ _ _ hrest,
        add_one_add_ofNat]
      congr 1
      exact mapRange_store8 (fun _ => 0#8) m page (by omega)

/-- The walk stops at the first offset whose byte is free or last, if there
is one. Induction on the offsets looked at. -/
theorem walk_stops (m : Mem) (page : Addr) (n : Nat) :
    WalkReaches m page n ∨
    ∃ k < n, WalkReaches m page k ∧
      (isFree m (page + BitVec.ofNat 32 k) = true ∨
        isLast m (page + BitVec.ofNat 32 k) = true) := by
  induction n with
  | zero => exact Or.inl fun l hl => absurd hl (Nat.not_lt_zero l)
  | succ n ih =>
      rcases ih with hreach | ⟨k, hk, hstop⟩
      · by_cases hgo : isFree m (page + BitVec.ofNat 32 n) = false ∧
          isLast m (page + BitVec.ofNat 32 n) = false
        · -- The byte at offset `n` lets the walk pass.
          refine Or.inl fun l hl => ?_
          rcases Nat.lt_succ_iff_lt_or_eq.mp hl with hlt | rfl
          · exact hreach l hlt
          · exact hgo
        · refine Or.inr ⟨n, by omega, hreach, ?_⟩
          simpa [Decidable.imp_iff_not_or] using hgo
      · exact Or.inr ⟨k, by omega, hstop⟩

/-- What the walk of `free` does to each byte: it clears the taken bytes it
reaches and writes no other byte. -/
theorem freeWalk_apply (m : Mem) (page : Addr) :
    ∃ m', freeWalk (2 ^ 32 + 1) m page = some m' ∧
      ∀ k < 2 ^ 32, m' (page + BitVec.ofNat 32 k)
        = if WalkReaches m page k ∧ isFree m (page + BitVec.ofNat 32 k) = false then 0#8
          else m (page + BitVec.ofNat 32 k) := by
  rcases walk_stops m page (2 ^ 32) with hall | ⟨k, hk, hreach, hstop⟩
  · -- No byte stops the walk: it comes back to its start and finds it free.
    refine ⟨mapRange (fun _ => 0#8) m page (2 ^ 32), ?_, fun l hl => ?_⟩
    · rw [freeWalk_run (2 ^ 32) (Nat.le_refl _) 1 m page hall]
      have hzero : isFree (mapRange (fun _ => 0#8) m page (2 ^ 32))
          (page + BitVec.ofNat 32 (2 ^ 32)) = true := by
        simp [isFree, mapRange, InRange]
      exact if_pos hzero
    · rw [if_pos ⟨hall.mono (by omega), (hall l hl).1⟩]
      refine if_pos ?_
      rwa [inRange_add_ofNat page hl]
  · have hfuel : 2 ^ 32 + 1 = k + ((2 ^ 32 - k) + 1) := by omega
    have hrun := freeWalk_run k (by omega) (2 ^ 32 - k + 1) m page hreach
    rw [← hfuel] at hrun
    -- The walk goes no further than the byte it stops on.
    have hbeyond : ∀ l, WalkReaches m page l → l ≤ k := by
      intro l hl
      by_contra hlt
      simp [hl k (by omega)] at hstop
    have hrange : ∀ l < 2 ^ 32, mapRange (fun _ => 0#8) m page k (page + BitVec.ofNat 32 l)
        = if l < k then 0#8 else m (page + BitVec.ofNat 32 l) := by
      intro l hl
      simp only [mapRange, inRange_add_ofNat page hl]
    have hkeep := hrange k hk
    rw [if_neg (by omega)] at hkeep
    by_cases hfree : isFree m (page + BitVec.ofNat 32 k) = true
    · -- It stops on a free byte and leaves it.
      refine ⟨mapRange (fun _ => 0#8) m page k, ?_, fun l hl => ?_⟩
      · rw [hrun]
        refine if_pos ?_
        rw [isFree, hkeep]
        exact hfree
      · rw [hrange l hl]
        refine if_congr ⟨fun hlt => ⟨hreach.mono (by omega), (hreach l hlt).1⟩, ?_⟩ rfl rfl
        rintro ⟨hl', htaken⟩
        rcases Nat.lt_or_eq_of_le (hbeyond l hl') with hlt | rfl
        · exact hlt
        · simp [hfree] at htaken
    · -- It stops on a last byte and clears it.
      have hlast : isLast m (page + BitVec.ofNat 32 k) = true := by
        simpa [hfree] using hstop
      refine ⟨clear (mapRange (fun _ => 0#8) m page k) (page + BitVec.ofNat 32 k), ?_,
        fun l hl => ?_⟩
      · rw [hrun]
        have hfree' : isFree (mapRange (fun _ => 0#8) m page k) (page + BitVec.ofNat 32 k)
            = false := by
          rw [isFree, hkeep]
          exact Bool.eq_false_iff.mpr hfree
        have hlast' : isLast (mapRange (fun _ => 0#8) m page k) (page + BitVec.ofNat 32 k)
            = true := by
          rw [isLast, hkeep]
          exact hlast
        rw [freeWalk, hfree', hlast']
        rfl
      · by_cases hlk : l = k
        · rw [hlk, clear, store8_same, if_pos ⟨hreach, by simpa using hfree⟩]
        · have hne : page + BitVec.ofNat 32 l ≠ page + BitVec.ofNat 32 k := by
            rwa [ne_eq, add_ofNat_inj page hl hk]
          rw [clear, store8_of_ne _ _ hne, hrange l hl]
          refine if_congr ⟨fun hlt => ⟨hreach.mono (by omega), (hreach l hlt).1⟩, ?_⟩ rfl rfl
          rintro ⟨hl', -⟩
          have := hbeyond l hl'
          omega

/-! ### What `free` keeps -/

/-- A byte of the heap: of the table, of the reserve or of a page. -/
def InHeap (L : HeapLayout) (x : Addr) : Prop := InRange L.heapStart L.heapSize.toNat x

instance (L : HeapLayout) (x : Addr) : Decidable (InHeap L x) :=
  inferInstanceAs (Decidable (InRange _ _ _))

/-- The byte that `free` takes for the descriptor of `p`. -/
def freePage (L : HeapLayout) (h : Heap) (p : Addr) : Addr :=
  L.heapStart + (p - h.allocStart) / BitVec.ofNat 32 pageSize

/-- `free(p)` returns with every byte of the heap as it was. -/
def HeapKept (L : HeapLayout) (h : Heap) (p : Addr) : Prop :=
  ∃ h', free L h p = some h' ∧ ∀ x, InHeap L x → h'.mem x = h.mem x

/-- The walk of `free(p)` reaches no taken byte of the heap. -/
def ReachesNoTaken (L : HeapLayout) (h : Heap) (p : Addr) : Prop :=
  ∀ k < 2 ^ 32, WalkReaches h.mem (freePage L h p) k →
    InHeap L (freePage L h p + BitVec.ofNat 32 k) →
    isFree h.mem (freePage L h p + BitVec.ofNat 32 k) = true

/-- A byte that is not free is not zero. -/
theorem ne_zero_of_taken {m : Mem} {x : Addr} (h : isFree m x = false) : m x ≠ 0#8 := by
  intro hzero
  simp [isFree, hzero] at h

/-- `free` keeps the heap exactly when its guard stops it or its walk
reaches no taken byte there. -/
theorem heapKept_iff (L : HeapLayout) (h : Heap) (p : Addr) :
    HeapKept L h p ↔ p = 0#32 ∨ h.allocEnd ≤ p ∨ ReachesNoTaken L h p := by
  by_cases hguard : p = 0#32 ∨ h.allocEnd ≤ p
  · have hkept : HeapKept L h p := ⟨h, if_pos hguard, fun _ _ => rfl⟩
    rcases hguard with hnull | hend
    · exact iff_of_true hkept (Or.inl hnull)
    · exact iff_of_true hkept (Or.inr (Or.inl hend))
  · obtain ⟨m', hwalk, hbytes⟩ := freeWalk_apply h.mem (freePage L h p)
    have hfree : free L h p = some { h with mem := m' } := by
      rw [free_of_inside L h hguard, ← freePage, hwalk]
      rfl
    have hnot : p ≠ 0#32 ∧ ¬ h.allocEnd ≤ p := by
      simpa [not_or] using hguard
    simp only [hnot, false_or]
    constructor
    · rintro ⟨h', heq, hkeep⟩ k hk hreach hin
      obtain rfl := Option.some.inj (hfree.symm.trans heq)
      by_contra htaken
      have htaken' : isFree h.mem (freePage L h p + BitVec.ofNat 32 k) = false := by
        simpa using htaken
      have hcleared := hbytes k hk
      rw [if_pos ⟨hreach, htaken'⟩] at hcleared
      -- A byte that the walk cleared is not the taken byte it was.
      exact ne_zero_of_taken htaken' ((hkeep _ hin).symm.trans hcleared)
    · intro hnone
      refine ⟨_, hfree, fun x hx => ?_⟩
      obtain ⟨k, hk, rfl⟩ := exists_offset (freePage L h p) x
      refine (hbytes k hk).trans (if_neg ?_)
      rintro ⟨hreach, htaken⟩
      simp [hnone k hk hreach hx] at htaken

/-- Where the walk starts on a byte of the heap, only that byte counts. -/
theorem reachesNoTaken_iff {L : HeapLayout} {h : Heap} {p : Addr}
    (hin : InHeap L (freePage L h p)) :
    ReachesNoTaken L h p ↔ isFree h.mem (freePage L h p) = true := by
  constructor
  · intro hnone
    have h0 := hnone 0 (by decide) (fun l hl => absurd hl (Nat.not_lt_zero l))
    rw [add_ofNat_zero] at h0
    exact h0 hin
  · intro hfree k hk hreach hink
    cases k with
    | zero => rwa [add_ofNat_zero]
    | succ k =>
        -- The walk does not pass a free byte.
        have h0 := (hreach 0 (by omega)).1
        rw [add_ofNat_zero, hfree] at h0
        exact absurd h0 (by decide)

/-- Below the pool the page index wraps to at least `0x780000`, which is
more than the pool has pages. -/
theorem pageIndex_below {L : HeapLayout} {h : Heap} (hs : HeapStatics L h) {p : Addr}
    (hlt : p < h.allocStart) :
    0x780000 ≤ ((p - h.allocStart) / BitVec.ofNat 32 pageSize).toNat := by
  have hsum := poolStart_add L
  have hstart := hs.allocStart
  have hdiff : 0x78000000 ≤ (p - h.allocStart).toNat := by
    bv_omega
  rw [BitVec.toNat_udiv]
  show 0x780000 ≤ (p - h.allocStart).toNat / 256
  omega

/-- `free` on an address outside of the pool, for every memory.

* It keeps the heap exactly when the address is `NULL` or not below
  `_alloc_end`, or the walk from its page index reaches no taken byte of the
  heap.
* An address below the pool that is not `NULL` has a page index past the end
  of the table.
* Where that index leads to a byte of the heap, the heap is kept exactly when
  bit 0 of that byte is clear. -/
theorem free_outside_iff {L : HeapLayout} {h : Heap} (hs : HeapStatics L h) {p : Addr}
    (hout : ¬ (h.allocStart ≤ p ∧ p < h.allocEnd)) :
    (HeapKept L h p ↔ p = 0#32 ∨ h.allocEnd ≤ p ∨ ReachesNoTaken L h p) ∧
    (p ≠ 0#32 → ¬ h.allocEnd ≤ p →
      0x780000 ≤ ((p - h.allocStart) / BitVec.ofNat 32 pageSize).toNat ∧
      (InHeap L (freePage L h p) →
        (HeapKept L h p ↔ isFree h.mem (freePage L h p) = true))) := by
  refine ⟨heapKept_iff L h p, fun hne hend => ⟨?_, fun hin => ?_⟩⟩
  · refine pageIndex_below hs ?_
    bv_omega
  · rw [heapKept_iff, reachesNoTaken_iff hin]
    simp [hne, hend]

/-- The main result at `NULL` and at an address below the pool of the fresh
heap, where all bytes are zero. -/
theorem freshHeap_free_below :
    HeapKept readmeLayout freshHeap 0#32 ∧ HeapKept readmeLayout freshHeap 1#32 := by
  have hstart : poolStart readmeLayout = 0x80091100 := by decide
  constructor
  · refine (free_outside_iff freshHeap_statics ?_).1.mpr (Or.inl rfl)
    rw [BitVec.le_def, freshHeap_statics.allocStart, hstart]
    decide
  · refine (free_outside_iff freshHeap_statics ?_).1.mpr (Or.inr (Or.inr ?_))
    · rw [BitVec.le_def, freshHeap_statics.allocStart, hstart]
      decide
    · exact fun _ _ _ _ => isFree_pageInit_zero _ _

/-- A heap where user data in a page of the pool has the byte 1, far from
the table. -/
def dataHeap : Heap :=
  pageInit readmeLayout fun x => if x = 0x808106fb#32 then 1#8 else 0#8

/-- `free(1)` on that heap clears the byte. -/
theorem free_one_clears :
    (requestSystem readmeLayout).Reachable ⟨dataHeap, []⟩ ∧
    ¬ (dataHeap.allocStart ≤ 1#32 ∧ 1#32 < dataHeap.allocEnd) ∧
    freePage readmeLayout dataHeap 1#32 = 0x808106fb#32 ∧
    ¬ HeapKept readmeLayout dataHeap 1#32 := by
  have hs : HeapStatics readmeLayout dataHeap := heapStatics_pageInit readmeLayout _
  -- The addresses are those of the README's layout.
  have hstart : dataHeap.allocStart = 0x80091100#32 := by
    apply BitVec.eq_of_toNat_eq
    rw [hs.allocStart]
    decide
  have hend : dataHeap.allocEnd = 0x88000000#32 := by
    apply BitVec.eq_of_toNat_eq
    rw [hs.allocEnd]
    decide
  have hpage : freePage readmeLayout dataHeap 1#32 = 0x808106fb#32 := by
    rw [freePage, hstart]
    decide
  have hbyte : isFree dataHeap.mem 0x808106fb#32 = false := by
    rw [isFree, dataHeap, pageInit_mem, if_neg (by decide), if_pos rfl]
    decide
  refine ⟨System.Reachable.of_init ⟨_, rfl⟩, by rw [hstart]; decide, hpage, ?_⟩
  rw [heapKept_iff, reachesNoTaken_iff (by rw [hpage]; decide), hpage, hbyte, hend]
  decide

end MiniRiscvOs.Proofs
