import MiniRiscvOs.Proofs.HeapFree

/-!
# `MiniRiscvOs.Proofs.HeapWalk`: the walk of `free` stays in its table

Here `free` gets any address of the pool: the start of a block, the middle
of one, or one that was freed before. A block that is freed from its middle
on leaves a stump without a last page, so a run of taken pages is no block
any more.

The scan of `malloc` stops one page before the last possible start, so it
never takes the last page of the pool (`lastFree_malloc`). That page is free
from `page_init` on, and no walk that starts in the table goes past it
(`visited_inside`).
-/

set_option autoImplicit false

namespace MiniRiscvOs.Proofs

open MiniRiscvOs.Lib
open MiniRiscvOs.Kernel

/-! ### What the walk touches -/

/-- The bytes that `freeWalk` reads, in order. It writes no others. -/
def visited : Nat → Mem → Addr → List Addr
  | 0, _, _ => []
  | fuel + 1, m, page =>
      page ::
        if isFree m page then []
        else if isLast m page then []
        else visited fuel (clear m page) (page + 1#32)

/-- The walk writes only what it visits. -/
theorem freeWalk_frame (fuel : Nat) :
    ∀ (m m' : Mem) (page : Addr), freeWalk fuel m page = some m' →
      ∀ x, x ∉ visited fuel m page → m' x = m x := by
  induction fuel with
  | zero =>
      intro m m' page h
      cases h
  | succ fuel ih =>
      intro m m' page h x hx
      -- The walk reads the flags, clears the byte, and goes on unless it was the
      -- last.
      have hwalk : (if isFree m page then some m
        else if isLast m page then some (clear m page)
        else freeWalk fuel (clear m page) (page + 1#32)) = some m' := h
      rw [visited, List.mem_cons, not_or] at hx
      split at hwalk
      · obtain rfl := Option.some.inj hwalk
        rfl
      · next hfree =>
          split at hwalk
          · obtain rfl := Option.some.inj hwalk
            exact store8_of_ne m _ hx.1
          · next hlast =>
              rw [if_neg hfree, if_neg hlast] at hx
              rw [ih _ _ _ hwalk x hx.2]
              exact store8_of_ne m _ hx.1

/-- A walk that starts at or before a free page does not go past it. -/
theorem visited_inside (L : HeapLayout) (last : Nat) (hlast : last < 2 ^ 32) (fuel : Nat) :
    ∀ (m : Mem) (j : Nat), j ≤ last → isFree m (pageDesc L last) = true →
      (visited fuel m (pageDesc L j)).length ≤ last - j + 1 ∧
      ∀ x ∈ visited fuel m (pageDesc L j), ∃ k, j ≤ k ∧ k ≤ last ∧ x = pageDesc L k := by
  -- The free page stays free: the walk clears only pages before it.
  induction fuel with
  | zero =>
      intro m j _ _
      exact ⟨Nat.zero_le _, fun x hx => by cases hx⟩
  | succ fuel ih =>
      intro m j hj hfree
      rw [visited]
      by_cases hstop : isFree m (pageDesc L j) = true
      · rw [if_pos hstop]
        refine ⟨Nat.succ_le_succ (Nat.zero_le _), fun x hx => ?_⟩
        exact ⟨j, Nat.le_refl j, hj, List.mem_singleton.mp hx⟩
      · rw [if_neg hstop]
        by_cases hend : isLast m (pageDesc L j) = true
        · rw [if_pos hend]
          refine ⟨Nat.succ_le_succ (Nat.zero_le _), fun x hx => ?_⟩
          exact ⟨j, Nat.le_refl j, hj, List.mem_singleton.mp hx⟩
        · -- A taken page is before the free one, which the walk leaves alone.
          rw [if_neg hend]
          have hne : j ≠ last := by
            rintro rfl
            exact hstop hfree
          have hkeep : isFree (clear m (pageDesc L j)) (pageDesc L last) = true := by
            have hother : pageDesc L last ≠ pageDesc L j := by
              rw [Ne, pageDesc, pageDesc, add_ofNat_inj L.heapStart hlast (by omega)]
              omega
            rw [isFree, clear, store8_of_ne m _ hother]
            exact hfree
          have hnext : pageDesc L j + 1#32 = pageDesc L (j + 1) := pageDesc_add L j 1
          obtain ⟨hlen, hin⟩ := ih (clear m (pageDesc L j)) (j + 1) (by omega) hkeep
          rw [hnext]
          refine ⟨by rw [List.length_cons]; omega, fun x hx => ?_⟩
          rcases List.mem_cons.mp hx with rfl | hx
          · exact ⟨j, Nat.le_refl j, hj, rfl⟩
          · obtain ⟨k, hle, hk, rfl⟩ := hin x hx
            exact ⟨k, by omega, hk, rfl⟩

/-! ### Runs with any `free` -/

/-- A call of the allocator, or other code that writes memory. -/
inductive PoolEvent where
  | malloc (size : Word)
  | free (p : Addr)
  | data (m : Mem)

/-- One event. A `malloc` asks for at most the whole pool, a `free` gets any
address of the pool, and other code does not write the table. -/
def anyFreeStep (L : HeapLayout) (h : Heap) : PoolEvent → Heap → Prop
  | .malloc size, h' =>
      (pageNum size).toNat ≤ h.numPages.toNat ∧ h' = (malloc L h size).1
  | .free p, h' => h.allocStart ≤ p ∧ p < h.allocEnd ∧ free L h p = some h'
  | .data m, h' =>
      (∀ x, InRange L.heapStart h.numPages.toNat x → m x = h.mem x) ∧ h' = { h with mem := m }

/-- The runs that start with `page_init` on any memory. -/
def anyFreeSystem (L : HeapLayout) : System Heap PoolEvent where
  init h := ∃ m, h = pageInit L m
  step := anyFreeStep L

/-- The statics are those of `page_init`, and the last page is free. -/
structure LastFree (L : HeapLayout) (h : Heap) : Prop where
  statics : HeapStatics L h
  free : 0 < poolPages L → isFree h.mem (pageDesc L (poolPages L - 1)) = true

section Runs

variable {L : HeapLayout} {h : Heap}

/-- `page_init` frees every page, and so the last one. -/
theorem lastFree_init (L : HeapLayout) (m : Mem) : LastFree L (pageInit L m) where
  statics := heapStatics_pageInit L m
  free hpos := by
    have hlast : poolPages L - 1 < poolPages L := by omega
    show decide (pageFlags L (pageInit L m) (poolPages L - 1) &&& pageTaken = 0#8) = true
    rw [pageFlags_pageInit L m hlast]
    decide

/-- `malloc` takes no run of pages that ends with the last one. -/
theorem lastFree_malloc (hinv : LastFree L h) {size : Word}
    (hsize : (pageNum size).toNat ≤ poolPages L) : LastFree L (malloc L h size).1 := by
  have hlt := poolPages_lt L
  rcases malloc_cases hinv.statics hsize with ⟨heq, -⟩ | ⟨i, hi, -, -, heq⟩
  · rw [heq]
    exact hinv
  · rw [heq]
    refine ⟨hinv.statics.withMem _, fun hpos => ?_⟩
    refine (isFree_mallocMark _ _ (pageNum_pos size) (by omega) _).mpr ⟨hinv.free hpos, ?_⟩
    have hoff := pageDesc_add L i (poolPages L - 1 - i)
    have hidx : i + (poolPages L - 1 - i) = poolPages L - 1 := by omega
    rw [hidx] at hoff
    rw [← hoff, inRange_add_ofNat _ (by omega)]
    omega

/-- The walk of `free` takes no page. -/
theorem isFree_freeWalk {m m' : Mem} {page x : Addr}
    (hwalk : freeWalk (2 ^ 32 + 1) m page = some m') (hx : isFree m x = true) :
    isFree m' x = true := by
  obtain ⟨m'', hsome, hbytes⟩ := freeWalk_apply m page
  rw [hwalk] at hsome
  obtain rfl := Option.some.inj hsome
  obtain ⟨k, hk, rfl⟩ := exists_offset page x
  rw [isFree, hbytes k hk]
  split
  · decide
  · exact hx

/-- An address of the pool is not `NULL` and below `_alloc_end`. -/
theorem not_guarded (hs : HeapStatics L h) {p : Addr} (hlow : h.allocStart ≤ p)
    (hhigh : p < h.allocEnd) : ¬ (p = 0#32 ∨ h.allocEnd ≤ p) := by
  have hpos := poolStart_pos L
  have hstart := hs.allocStart
  rintro (rfl | hend)
  · rw [BitVec.le_def] at hlow
    have hzero : (0#32 : Word).toNat = 0 := rfl
    omega
  · rw [BitVec.le_def] at hend
    rw [BitVec.lt_def] at hhigh
    omega

/-- The descriptor of an address of the pool is one of the table. -/
theorem freePage_inside (hs : HeapStatics L h) {p : Addr} (hlow : h.allocStart ≤ p)
    (hhigh : p < h.allocEnd) : ∃ j < poolPages L, freePage L h p = pageDesc L j := by
  have hsum := poolStart_add L
  have hstart := hs.allocStart
  have hend := hs.allocEnd
  have hle : h.allocStart.toNat ≤ p.toNat := BitVec.le_def.mp hlow
  have hlt : p.toNat < h.allocEnd.toNat := BitVec.lt_def.mp hhigh
  have hindex : ((p - h.allocStart) / BitVec.ofNat 32 pageSize).toNat
      = (p.toNat - poolStart L) / 256 := by
    rw [BitVec.toNat_udiv, BitVec.toNat_sub_of_le hlow, hstart]
    rfl
  refine ⟨(p.toNat - poolStart L) / 256, by omega, ?_⟩
  rw [freePage, pageDesc, ← hindex, BitVec.ofNat_toNat, BitVec.setWidth_eq]

/-- `free` takes no page, whatever pointer it gets. -/
theorem lastFree_free (hinv : LastFree L h) {p : Addr} {h' : Heap} (hfree : free L h p = some h') :
    LastFree L h' := by
  refine ⟨hinv.statics.free hfree, fun hpos => ?_⟩
  unfold free at hfree
  split at hfree
  · obtain rfl := Option.some.inj hfree
    exact hinv.free hpos
  · obtain ⟨m, hwalk, rfl⟩ := Option.map_eq_some_iff.mp hfree
    exact isFree_freeWalk hwalk (hinv.free hpos)

/-- The last page is free in every reachable heap. -/
theorem lastFree_reachable (hreach : (anyFreeSystem L).Reachable h) : LastFree L h := by
  refine System.invariant (M := anyFreeSystem L) (I := LastFree L) ?_ ?_ hreach
  · rintro h ⟨m, rfl⟩
    exact lastFree_init L m
  · intro h e h' hinv hstep
    -- A call keeps the last page free; a task that stores leaves the table alone.
    cases e with
    | malloc size =>
        obtain ⟨hsize, rfl⟩ := hstep
        rw [hinv.statics.numPages] at hsize
        exact lastFree_malloc hinv hsize
    | free p => exact lastFree_free hinv hstep.2.2
    | data m =>
        obtain ⟨hkeep, rfl⟩ := hstep
        have hlt := poolPages_lt L
        refine ⟨hinv.statics.withMem m, fun hpos => ?_⟩
        have hin : InRange L.heapStart h.numPages.toNat (pageDesc L (poolPages L - 1)) := by
          rw [pageDesc, inRange_add_ofNat _ (by omega), hinv.statics.numPages]
          omega
        show decide (m (pageDesc L (poolPages L - 1)) &&& pageTaken = 0#8) = true
        rw [hkeep _ hin]
        exact hinv.free hpos

end Runs

/-- The first page of a walk is free after it. -/
theorem isFree_start {m m' : Mem} {page : Addr}
    (hwalk : freeWalk (2 ^ 32 + 1) m page = some m') : isFree m' page = true := by
  obtain ⟨m'', hsome, hbytes⟩ := freeWalk_apply m page
  rw [hwalk] at hsome
  obtain rfl := Option.some.inj hsome
  have h0 := hbytes 0 (by decide)
  rw [add_ofNat_zero] at h0
  rw [isFree, h0]
  split
  · decide
  · next hnot =>
      have hreach : WalkReaches m page 0 := fun l hl => absurd hl (Nat.not_lt_zero l)
      have hfree : isFree m page = true := by
        by_contra htaken
        exact hnot ⟨hreach, Bool.eq_false_iff.mpr htaken⟩
      exact hfree

/-- `free` on any address of the pool, after any calls before: it returns,
its loop reads and writes only descriptors of the table, not more of them
than there are, and the same `free` once more changes nothing. -/
theorem free_walk_inside {L : HeapLayout} {h : Heap} (hreach : (anyFreeSystem L).Reachable h)
    {p : Addr} (hlow : h.allocStart ≤ p) (hhigh : p < h.allocEnd) :
    ∃ h', free L h p = some h' ∧
      (visited (2 ^ 32 + 1) h.mem (freePage L h p)).length ≤ h.numPages.toNat ∧
      (∀ x ∈ visited (2 ^ 32 + 1) h.mem (freePage L h p),
        ∃ j < h.numPages.toNat, x = pageDesc L j) ∧
      (∀ x, x ∉ visited (2 ^ 32 + 1) h.mem (freePage L h p) → h'.mem x = h.mem x) ∧
      free L h' p = some h' := by
  have hinv := lastFree_reachable hreach
  have hlt := poolPages_lt L
  have hguard := not_guarded hinv.statics hlow hhigh
  -- The page that `p` leads to is at or before the last one, which is free.
  obtain ⟨j, hj, hpage⟩ := freePage_inside hinv.statics hlow hhigh
  obtain ⟨m', hwalk, -⟩ := freeWalk_apply h.mem (freePage L h p)
  have hfree : free L h p = some { h with mem := m' } := by
    rw [free_of_inside L h hguard, ← freePage, hwalk]
    rfl
  obtain ⟨hlen, hin⟩ := visited_inside L (poolPages L - 1) (by omega) (2 ^ 32 + 1) h.mem j
    (by omega) (hinv.free (by omega))
  rw [← hpage] at hlen hin
  refine ⟨_, hfree, by rw [hinv.statics.numPages]; omega, ?_, freeWalk_frame _ _ _ _ hwalk, ?_⟩
  · intro x hx
    obtain ⟨k, -, hk, rfl⟩ := hin x hx
    exact ⟨k, by rw [hinv.statics.numPages]; omega, rfl⟩
  · -- The second walk ends where it starts.
    have hstart : isFree m' (freePage L h p) = true := isFree_start hwalk
    have hagain : freeWalk (2 ^ 32 + 1) m' (freePage L h p) = some m' := if_pos hstart
    rw [free_of_inside L { h with mem := m' } hguard]
    show (freeWalk (2 ^ 32 + 1) m' (freePage L h p)).map _ = _
    rw [hagain]
    rfl

/-- A `malloc` makes no page free. -/
theorem isFree_of_malloc {L : HeapLayout} {h : Heap} (hs : HeapStatics L h) {size : Word}
    (hsize : (pageNum size).toNat ≤ poolPages L) {x : Addr}
    (hx : isFree (malloc L h size).1.mem x = true) : isFree h.mem x = true := by
  have hlt := poolPages_lt L
  rcases malloc_cases hs hsize with ⟨heq, -⟩ | ⟨i, hi, -, -, heq⟩
  · rwa [heq] at hx
  · rw [heq] at hx
    exact ((isFree_mallocMark _ _ (pageNum_pos size) (by omega) x).mp hx).1

/-- The calls of `malloc` in `page_test`. -/
def testMallocs (L : HeapLayout) (h : Heap) : Heap :=
  (malloc L (malloc L (malloc L h 1024#32).1 512#32).1 4#32).1

/-- Each of the three calls asks for at most four pages. -/
theorem reachable_testMallocs {L : HeapLayout} {h : Heap} (hreach : (anyFreeSystem L).Reachable h)
    (hroom : 4 ≤ poolPages L) : (anyFreeSystem L).Reachable (testMallocs L h) := by
  have hmalloc : ∀ {h : Heap} (size : Word), (anyFreeSystem L).Reachable h →
      (pageNum size).toNat ≤ 4 → (anyFreeSystem L).Reachable (malloc L h size).1 := by
    intro h size hreach hsize
    refine hreach.step (e := .malloc size) ⟨?_, rfl⟩
    rw [(lastFree_reachable hreach).statics.numPages]
    exact Nat.le_trans hsize hroom
  have hone := hmalloc 1024#32 hreach (by decide)
  have htwo := hmalloc 512#32 hone (by decide)
  exact hmalloc 4#32 htwo (by decide)

/-- On a heap with all pages free they take the third page of the pool: it is in the
first block. -/
theorem testMallocs_taken {L : HeapLayout} {h : Heap} (hs : HeapStatics L h)
    (hfree : ∀ x, isFree h.mem x = true) (hroom : 4 < poolPages L) :
    isFree (testMallocs L h).mem (pageDesc L 2) = false := by
  have hone := hs.malloc 1024#32
  have htwo := hone.malloc 512#32
  have hnum : (pageNum 1024#32).toNat = 4 := by decide
  have hfit : ∀ size, (pageNum size).toNat ≤ 4 → (pageNum size).toNat ≤ poolPages L :=
    fun _ h => Nat.le_trans h (Nat.le_of_lt hroom)
  by_contra hfree'
  rw [Bool.not_eq_false] at hfree'
  have hfree₂ := isFree_of_malloc htwo (hfit 4#32 (by decide)) hfree'
  have hfree₁ := isFree_of_malloc hone (hfit 512#32 (by decide)) hfree₂
  have hrun : FreeRun h.mem (pageDesc L 0) (pageNum 1024#32).toNat := fun _ _ => hfree _
  have hfirst := malloc_first hs (by omega) hrun (by simp)
  rw [hfirst] at hfree₁
  have hout := ((isFree_mallocMark _ _ (pageNum_pos 1024#32) (by omega) _).mp hfree₁).2
  rw [hnum, pageDesc, pageDesc, add_ofNat_zero, inRange_add_ofNat _ (by decide)] at hout
  exact hout (by decide)

/-- The heap of `page_test` behind its calls of `malloc`. -/
def testHeap : Heap := testMallocs readmeLayout freshHeap

/-- The heap of the test is reached. -/
theorem testHeap_reachable : (anyFreeSystem readmeLayout).Reachable testHeap :=
  reachable_testMallocs (System.Reachable.of_init ⟨_, rfl⟩) (by decide)

/-- The third page of it is taken. -/
theorem testHeap_taken : isFree testHeap.mem (pageDesc readmeLayout 2) = false :=
  testMallocs_taken freshHeap_statics (isFree_pageInit_zero _) (by decide)

/-- The heap of `page_test`, with a `free` of an address in the middle of the
first block: the walk starts at a taken page. -/
theorem testHeap_free_walk :
    isFree testHeap.mem (freePage readmeLayout testHeap 0x80091321#32) = false ∧
    ∃ h', free readmeLayout testHeap 0x80091321#32 = some h' ∧
      (visited (2 ^ 32 + 1) testHeap.mem
        (freePage readmeLayout testHeap 0x80091321#32)).length ≤ testHeap.numPages.toNat ∧
      (∀ x ∈ visited (2 ^ 32 + 1) testHeap.mem
        (freePage readmeLayout testHeap 0x80091321#32),
        ∃ j < testHeap.numPages.toNat, x = pageDesc readmeLayout j) ∧
      (∀ x, x ∉ visited (2 ^ 32 + 1) testHeap.mem
        (freePage readmeLayout testHeap 0x80091321#32) → h'.mem x = testHeap.mem x) ∧
      free readmeLayout h' 0x80091321#32 = some h' := by
  have hstatics := (lastFree_reachable testHeap_reachable).statics
  have hstart : testHeap.allocStart = 0x80091100#32 :=
    BitVec.eq_of_toNat_eq (hstatics.allocStart.trans (by decide))
  refine ⟨?_, free_walk_inside testHeap_reachable ?_ ?_⟩
  · -- The address lies in the third page of the pool.
    have hpage : freePage readmeLayout testHeap 0x80091321#32 = pageDesc readmeLayout 2 := by
      rw [freePage, hstart]
      decide
    rw [hpage]
    exact testHeap_taken
  · rw [hstart]
    decide
  · rw [BitVec.lt_def, hstatics.allocEnd]
    decide

end MiniRiscvOs.Proofs
