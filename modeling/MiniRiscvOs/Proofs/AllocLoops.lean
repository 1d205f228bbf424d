import MiniRiscvOs.Kernel.Alloc

/-!
# `MiniRiscvOs.Proofs.AllocLoops`: what the loops of `alloc.c` compute

One lemma for each loop of the allocator, so that nothing after this file
unfolds a loop again:

* `clearPages_eq` and `mallocTake_eq`: the counted loops act on a range of
  descriptors.
* `mallocCheck_iff`: the check loop asks for a run of free pages.
* `mallocScan_cases`: the scan returns `NULL` with the heap as it was, or
  takes the first run of free pages it meets.
* `freeWalk_block`: the walk over one block clears that block.
* `free_ne_none`: the walk ends on every memory, in the table or not.
-/

set_option autoImplicit false

namespace MiniRiscvOs.Proofs

open MiniRiscvOs.Lib
open MiniRiscvOs.Kernel

/-! ### The counted loops -/

/-- The loop of `page_init` clears the `n` descriptors from `page` on. -/
theorem clearPages_eq (n : Nat) (hn : n ≤ 2 ^ 32) :
    ∀ (m : Mem) (page : Addr),
      clearPages m n page = mapRange (fun _ => 0#8) m page n := by
  induction n with
  | zero =>
      intro m page
      rw [mapRange_zero]
      rfl
  | succ n ih =>
      intro m page
      -- One turn of the loop, then the rest from the next descriptor on.
      show clearPages (clear m page) n (page + 1#32) = _
      rw [ih (by omega)]
      exact mapRange_store8 (fun _ => 0#8) m page (by omega)

/-- The loop over `k` sets `PAGE_TAKEN` on `n` descriptors and stops one
past them. -/
theorem mallocTake_eq (n : Nat) (hn : n ≤ 2 ^ 32) :
    ∀ (m : Mem) (page : Addr),
      mallocTake m n page
        = (mapRange (fun b => b ||| pageTaken) m page n, page + BitVec.ofNat 32 n) := by
  induction n with
  | zero =>
      intro m page
      rw [mapRange_zero, BitVec.add_zero]
      rfl
  | succ n ih =>
      intro m page
      show mallocTake (setFlag m page pageTaken) n (page + 1#32) = _
      -- The pointer has moved on by one page and then by `n`.
      rw [ih (by omega), add_ofNat_add page 1 n, Nat.add_comm 1 n]
      congr 1
      exact mapRange_store8 (fun b => b ||| pageTaken) m page (by omega)

/-- The check loop accepts exactly a run of free pages. -/
theorem mallocCheck_iff (m : Mem) (n : Nat) :
    ∀ page : Addr, mallocCheck m n page = true
      ↔ ∀ k < n, isFree m (page + BitVec.ofNat 32 k) = true := by
  induction n with
  | zero =>
      intro page
      simp [mallocCheck]
  | succ n ih =>
      intro page
      show (if isFree m page then mallocCheck m n (page + 1#32) else false) = true ↔ _
      constructor
      · intro h k hk
        split at h
        · rename_i hfree
          cases k with
          -- The page the loop looks at, or one of those behind it.
          | zero => rwa [BitVec.add_zero]
          | succ k =>
              rw [← add_one_add_ofNat]
              exact (ih _).mp h k (by omega)
        · exact absurd h (by decide)
      · intro h
        have h0 := h 0 (by omega)
        rw [BitVec.add_zero] at h0
        rw [if_pos h0]
        refine (ih _).mpr fun k hk => ?_
        rw [add_one_add_ofNat]
        exact h (k + 1) (by omega)

/-- The descriptors of a block of `n` pages after the housekeeping of
`malloc`: taken all, and the one at offset `n - 1` marked last as well. -/
theorem mallocMark_apply (m : Mem) (page : Addr) {n : Nat} (hpos : 0 < n)
    (hn : n ≤ 2 ^ 32) {k : Nat} (hk : k < 2 ^ 32) :
    mallocMark m n page (page + BitVec.ofNat 32 k)
      = if k + 1 < n then m (page + BitVec.ofNat 32 k) ||| pageTaken
        else if k + 1 = n then m (page + BitVec.ofNat 32 k) ||| pageTaken ||| pageLast
        else m (page + BitVec.ofNat 32 k) := by
  -- `malloc` steps back from the page behind the block.
  have hlast : page + BitVec.ofNat 32 n - 1#32 = page + BitVec.ofNat 32 (n - 1) := by
    bv_omega
  have hmark : mallocMark m n page
      = setFlag (mapRange (fun b => b ||| pageTaken) m page n)
          (page + BitVec.ofNat 32 (n - 1)) pageLast := by
    rw [mallocMark, mallocTake_eq n hn]
    show setFlag _ (page + BitVec.ofNat 32 n - 1#32) pageLast = _
    rw [hlast]
  rw [hmark, setFlag]
  have hat : ∀ i < 2 ^ 32, mapRange (fun b => b ||| pageTaken) m page n
        (page + BitVec.ofNat 32 i)
      = if i < n then m (page + BitVec.ofNat 32 i) ||| pageTaken
        else m (page + BitVec.ofNat 32 i) := by
    intro i hi
    unfold mapRange
    simp only [inRange_add_ofNat page hi]
  by_cases hkn : k + 1 = n
  -- The last page has both stores, the others have one or none.
  · have hk' : n - 1 = k := by omega
    rw [hk', store8_same, hat k hk, if_pos (by omega), if_neg (by omega), if_pos hkn]
  · have hne : page + BitVec.ofNat 32 k ≠ page + BitVec.ofNat 32 (n - 1) := by
      intro h
      have := (add_ofNat_inj page hk (by omega)).mp h
      omega
    rw [store8_of_ne _ _ hne, hat k hk, if_neg hkn]
    by_cases hlt : k < n
    · rw [if_pos hlt, if_pos (by omega)]
    · rw [if_neg hlt, if_neg (by omega)]

/-- A memory has a run of `n` free pages from `page` on. -/
def FreeRun (m : Mem) (page : Addr) (n : Nat) : Prop :=
  ∀ k < n, isFree m (page + BitVec.ofNat 32 k) = true

/-- The scan is a first-fit search. It meets no run of free pages and
returns `NULL` with the heap as it was, or it takes the first run. -/
theorem mallocScan_cases (h : Heap) {npages : Nat} (hpos : 0 < npages) :
    ∀ (n i : Nat) (page : Addr),
      (mallocScan h npages n i page = (h, 0#32) ∧
        ∀ k < n, ¬ FreeRun h.mem (page + BitVec.ofNat 32 k) npages) ∨
      ∃ k < n, FreeRun h.mem (page + BitVec.ofNat 32 k) npages ∧
        (∀ l < k, ¬ FreeRun h.mem (page + BitVec.ofNat 32 l) npages) ∧
        mallocScan h npages n i page
          = ({ h with mem := mallocMark h.mem npages (page + BitVec.ofNat 32 k) },
              h.allocStart + BitVec.ofNat 32 ((i + k) * pageSize)) := by
  intro n
  induction n with
  | zero =>
      intro i page
      exact Or.inl ⟨rfl, fun k hk => absurd hk (Nat.not_lt_zero k)⟩
  | succ n ih =>
      intro i page
      have hscan : mallocScan h npages (n + 1) i page
          = if isFree h.mem page && mallocCheck h.mem npages page then
              ({ h with mem := mallocMark h.mem npages page },
                h.allocStart + BitVec.ofNat 32 (i * pageSize))
            else mallocScan h npages n (i + 1) (page + 1#32) := rfl
      have h0 := add_ofNat_zero page
      by_cases hrun : FreeRun h.mem page npages
      · -- The run starts at this very page.
        have hfree : isFree h.mem page = true := by
          have := hrun 0 hpos
          rwa [h0] at this
        have hcheck := (mallocCheck_iff h.mem npages page).mpr hrun
        refine Or.inr ⟨0, by omega, by rwa [h0], fun l hl => absurd hl (Nat.not_lt_zero l), ?_⟩
        rw [hscan, hfree, hcheck, h0]
        rfl
      · have hcheck : mallocCheck h.mem npages page = false := by
          cases hc : mallocCheck h.mem npages page with
          | false => rfl
          | true => exact absurd ((mallocCheck_iff h.mem npages page).mp hc) hrun
        -- No run starts here, so the scan goes on at the next page.
        rw [hcheck, Bool.and_false, if_neg (by decide)] at hscan
        rw [hscan]
        rcases ih (i + 1) (page + 1#32) with ⟨heq, hnone⟩ | ⟨k, hk, hfound, hfirst, heq⟩
        · refine Or.inl ⟨heq, fun k hk => ?_⟩
          cases k with
          | zero => rwa [h0]
          | succ k =>
              rw [← add_one_add_ofNat]
              exact hnone k (by omega)
        · refine Or.inr ⟨k + 1, by omega, by rwa [← add_one_add_ofNat], fun l hl => ?_, ?_⟩
          · cases l with
            | zero => rwa [h0]
            | succ l =>
                rw [← add_one_add_ofNat]
                exact hfirst l (by omega)
          · rw [heq, add_one_add_ofNat, Nat.add_right_comm, Nat.add_assoc]

/-- The number of start pages that the loop of `malloc` tries. It is the
unsigned difference, so it wraps for a request larger than the pool. -/
def startPages (h : Heap) (size : Word) : Nat :=
  (h.numPages - BitVec.ofNat 32 (pageNum size).toNat).toNat

/-- `malloc` for every heap and every size, as the search that it is. -/
theorem malloc_search (L : HeapLayout) (h : Heap) {size : Word} {n : Nat}
    (hn : (pageNum size).toNat = n) (hpos : 0 < n) :
    (malloc L h size = (h, 0#32) ∧
      ∀ i < startPages h size, ¬ FreeRun h.mem (L.heapStart + BitVec.ofNat 32 i) n) ∨
    ∃ i < startPages h size, FreeRun h.mem (L.heapStart + BitVec.ofNat 32 i) n ∧
      (∀ l < i, ¬ FreeRun h.mem (L.heapStart + BitVec.ofNat 32 l) n) ∧
      malloc L h size
        = ({ h with mem := mallocMark h.mem n (L.heapStart + BitVec.ofNat 32 i) },
            h.allocStart + BitVec.ofNat 32 (i * pageSize)) := by
  subst hn
  have hmalloc : malloc L h size
      = mallocScan h (pageNum size).toNat (startPages h size) 0 L.heapStart := rfl
  have hcases := mallocScan_cases h hpos (startPages h size) 0 L.heapStart
  rw [← hmalloc] at hcases
  simpa only [Nat.zero_add] using hcases

/-- `malloc` with no run of free pages at any start it tries. -/
theorem malloc_of_none (L : HeapLayout) (h : Heap) {size : Word} {n : Nat}
    (hn : (pageNum size).toNat = n) (hpos : 0 < n)
    (hnone : ∀ i < startPages h size, ¬ FreeRun h.mem (L.heapStart + BitVec.ofNat 32 i) n) :
    malloc L h size = (h, 0#32) := by
  rcases malloc_search L h hn hpos with ⟨heq, -⟩ | ⟨i, hi, hrun, -, -⟩
  · exact heq
  · exact absurd hrun (hnone i hi)

/-- `malloc` takes the first run of free pages. -/
theorem malloc_of_first (L : HeapLayout) (h : Heap) {size : Word} {n : Nat}
    (hn : (pageNum size).toNat = n) (hpos : 0 < n) {i : Nat} (hi : i < startPages h size)
    (hrun : FreeRun h.mem (L.heapStart + BitVec.ofNat 32 i) n)
    (hfirst : ∀ l < i, ¬ FreeRun h.mem (L.heapStart + BitVec.ofNat 32 l) n) :
    malloc L h size
      = ({ h with mem := mallocMark h.mem n (L.heapStart + BitVec.ofNat 32 i) },
          h.allocStart + BitVec.ofNat 32 (i * pageSize)) := by
  rcases malloc_search L h hn hpos with ⟨-, hnone⟩ | ⟨j, -, hrunj, hfirstj, heq⟩
  · exact absurd hrun (hnone i hi)
  · -- Two first runs are one run.
    rcases Nat.lt_trichotomy i j with hlt | rfl | hgt
    · exact absurd hrun (hfirstj i hlt)
    · exact heq
    · exact absurd hrunj (hfirst j hgt)

/-- Or-ing flags into a byte that has `PAGE_TAKEN` keeps it taken. -/
theorem or_pageTaken_ne (b : Byte) : (b ||| pageTaken) &&& pageTaken ≠ 0#8 := by
  have hself : (b ||| pageTaken) &&& pageTaken = pageTaken := by
    ext i hi
    simp only [BitVec.getElem_and, BitVec.getElem_or]
    cases b[i] <;> cases pageTaken[i] <;> rfl
  rw [hself]
  decide

/-- `PAGE_LAST` is another bit than `PAGE_TAKEN`. -/
theorem or_pageLast_and (b : Byte) : (b ||| pageLast) &&& pageTaken = b &&& pageTaken := by
  have hdistrib : (b ||| pageLast) &&& pageTaken
      = (b &&& pageTaken) ||| (pageLast &&& pageTaken) := by
    ext i hi
    simp only [BitVec.getElem_and, BitVec.getElem_or, Bool.and_or_distrib_right]
  have hbits : pageLast &&& pageTaken = 0#8 := by decide
  rw [hdistrib, hbits, BitVec.or_zero]

/-- After the housekeeping of `malloc` a page is free exactly when it was
free before and lies outside of the block. -/
theorem isFree_mallocMark (m : Mem) (page : Addr) {n : Nat} (hpos : 0 < n) (hn : n ≤ 2 ^ 32)
    (x : Addr) :
    isFree (mallocMark m n page) x = true ↔ isFree m x = true ∧ ¬ InRange page n x := by
  obtain ⟨k, hk, rfl⟩ := exists_offset page x
  rw [inRange_add_ofNat page hk, isFree, isFree, mallocMark_apply m page hpos hn hk]
  simp only [decide_eq_true_iff]
  -- Inside of the block but the last page, the last page, and outside.
  split
  · simp [or_pageTaken_ne]
    omega
  · split
    · simp only [or_pageLast_and, or_pageTaken_ne, false_iff, not_and, not_not]
      omega
    · simp
      omega

/-! ### The walk of `free` -/

/-- The walk over one block clears the descriptors of that block and no
other byte. Induction on the pages left, with the memory generalised
because the walk clears as it goes. -/
theorem freeWalk_block (n : Nat) (hpos : 0 < n) (hn : n ≤ 2 ^ 32) :
    ∀ (fuel : Nat) (m : Mem) (page : Addr), n ≤ fuel →
      (∀ k, k + 1 < n → m (page + BitVec.ofNat 32 k) = pageTaken) →
      m (page + BitVec.ofNat 32 (n - 1)) = pageTaken ||| pageLast →
      freeWalk fuel m page = some (mapRange (fun _ => 0#8) m page n) := by
  induction n with
  | zero => exact absurd hpos (by decide)
  | succ n ih =>
      intro fuel m page hfuel hbody hlast
      cases fuel with
      | zero => omega
      | succ fuel =>
          have h0 := add_ofNat_zero page
          show (if isFree m page then some m
            else if isLast m page then some (clear m page)
            else freeWalk fuel (clear m page) (page + 1#32)) = _
          cases n with
          | zero =>
              -- One page left: it is the last one, and the walk stops on it.
              rw [Nat.add_sub_cancel, h0] at hlast
              have hfree : isFree m page = false := by rw [isFree, hlast]; decide
              have hislast : isLast m page = true := by rw [isLast, hlast]; decide
              rw [hfree, hislast, if_neg (by decide), if_pos rfl]
              have := mapRange_store8 (fun _ => 0#8) m page (n := 0) (by decide)
              rw [mapRange_zero] at this
              exact congrArg some this
          | succ n =>
              -- A page inside the block: the walk clears it and goes on.
              have hpage : m page = pageTaken := by
                have := hbody 0 (by omega)
                rwa [h0] at this
              have hfree : isFree m page = false := by rw [isFree, hpage]; decide
              have hislast : isLast m page = false := by rw [isLast, hpage]; decide
              -- What the walk clears is not read again.
              have hkeep : ∀ k, k + 1 < 2 ^ 32 →
                  clear m page (page + BitVec.ofNat 32 (k + 1))
                    = m (page + BitVec.ofNat 32 (k + 1)) := by
                intro k hk
                refine store8_of_ne m _ fun h => ?_
                have := (add_ofNat_inj page hk (by decide : 0 < 2 ^ 32)).mp (by rw [h0]; exact h)
                omega
              rw [hfree, hislast, if_neg (by decide), if_neg (by decide),
                ih (by omega) (by omega) fuel (clear m page) (page + 1#32) (by omega)]
              · exact congrArg some (mapRange_store8 (fun _ => 0#8) m page (by omega))
              · intro k hk
                rw [add_one_add_ofNat, hkeep k (by omega)]
                exact hbody (k + 1) (by omega)
              · have hidx : n + 1 - 1 + 1 = n + 1 + 1 - 1 := by omega
                rw [add_one_add_ofNat, hkeep _ (by omega), hidx]
                exact hlast

/-- The walk ends when a free byte lies within its fuel. -/
theorem freeWalk_isSome_of_free (fuel : Nat) :
    ∀ (m : Mem) (page : Addr),
      (∃ k < fuel, isFree m (page + BitVec.ofNat 32 k) = true) →
      freeWalk fuel m page ≠ none := by
  induction fuel with
  | zero =>
      rintro m page ⟨k, hk, -⟩
      exact absurd hk (Nat.not_lt_zero k)
  | succ fuel ih =>
      rintro m page ⟨k, hk, hfree⟩
      show (if isFree m page then some m
        else if isLast m page then some (clear m page)
        else freeWalk fuel (clear m page) (page + 1#32)) ≠ none
      split
      · simp
      · rename_i hpage
        split
        · simp
        · cases k with
          | zero =>
              rw [add_ofNat_zero] at hfree
              exact absurd hfree hpage
          | succ k =>
              refine ih _ _ ⟨k, by omega, ?_⟩
              rw [add_one_add_ofNat]
              -- Clearing a byte frees it and changes no other byte.
              by_cases heq : page + BitVec.ofNat 32 (k + 1) = page
              · rw [heq, isFree, clear, store8_same]
                decide
              · rw [isFree, clear, store8_of_ne m _ heq]
                exact hfree

/-- The walk of `free` ends on every memory. After one step the byte it
left behind is free, and it lies `2 ^ 32 - 1` bytes ahead of the walk. -/
theorem freeWalk_ne_none (m : Mem) (page : Addr) : freeWalk (2 ^ 32 + 1) m page ≠ none := by
  show (if isFree m page then some m
    else if isLast m page then some (clear m page)
    else freeWalk (2 ^ 32) (clear m page) (page + 1#32)) ≠ none
  split
  · simp
  · split
    · simp
    · refine freeWalk_isSome_of_free _ _ _ ⟨2 ^ 32 - 1, by decide, ?_⟩
      have hwrap : page + 1#32 + BitVec.ofNat 32 (2 ^ 32 - 1) = page := by
        bv_omega
      rw [hwrap, isFree, clear, store8_same]
      decide

/-- Past its guard, `free` is the walk from the descriptor of its page. -/
theorem free_of_inside (L : HeapLayout) (h : Heap) {p : Addr}
    (hp : ¬ (p = 0#32 ∨ h.allocEnd ≤ p)) :
    free L h p = (freeWalk (2 ^ 32 + 1) h.mem
      (L.heapStart + (p - h.allocStart) / BitVec.ofNat 32 pageSize)).map
        fun m => { h with mem := m } :=
  if_neg hp

/-- `free` returns on every heap and every pointer. -/
theorem free_ne_none (L : HeapLayout) (h : Heap) (p : Addr) : free L h p ≠ none := by
  rw [free]
  split
  · simp
  · simp only [ne_eq, Option.map_eq_none_iff]
    exact freeWalk_ne_none h.mem _

end MiniRiscvOs.Proofs
