import MiniRiscvOs.Kernel.MallocSteps
import MiniRiscvOs.Proofs.HeapRequests

/-!
# `MiniRiscvOs.Proofs.MallocSteps`: one call of `malloc`, access by access

`malloc_run` connects the two models of `malloc`: a call that no other task
interrupts runs to its end, and its result and its memory are those of the
function `malloc`. One lemma for each loop leads there, `check_run`,
`scan_run` and `take_run`.

The access-level model also says which bytes a call reads. A request for
more pages than the pool has is what that is needed for. The loop bound
`_num_pages - npages` wraps then, and `oversized_never_clean` shows that no
such request fails without a trace.
-/

set_option autoImplicit false

namespace MiniRiscvOs.Proofs

open MiniRiscvOs.Lib
open MiniRiscvOs.Kernel

/-- The two spellings of the address of a descriptor. -/
@[simp] theorem pagePtr_eq (L : HeapLayout) (i : Nat) : pagePtr L i = pageDesc L i := rfl

/-- The pointer after `page_k--`. -/
theorem lastPtr_eq (L : HeapLayout) (i : Nat) {n : Nat} (hpos : 0 < n) :
    pagePtr L (i + n) - 1#32 = pageDesc L (i + n - 1) := by
  rw [pagePtr_eq, pageDesc, pageDesc]
  bv_omega

section Solo

variable {L : HeapLayout} {h : Heap} {size : Word}

/-- One access, as a run. -/
theorem access_run {m m' : Mem} {pc pc' : MallocPc} {a : Addr}
    (ha : pc.touches L (pageNum size).toNat = some a)
    (hstep : mallocStep L h (pageNum size).toNat m pc = (m', pc')) :
    (mallocSystem L h size).Run (m, pc) [a] (m', pc') :=
  System.Run.single ⟨ha, hstep.symm⟩

/-- A run of free pages is a free page with a run behind it. -/
theorem freeRun_succ (m : Mem) (i d : Nat) :
    FreeRun m (pageDesc L i) (d + 1)
      ↔ isFree m (pageDesc L i) = true ∧ FreeRun m (pageDesc L (i + 1)) d := by
  simp only [FreeRun, pageDesc_add, Nat.forall_lt_succ_left, Nat.add_zero]
  simp [Nat.add_assoc, Nat.add_comm 1]

instance (m : Mem) (page : Addr) (n : Nat) : Decidable (FreeRun m page n) :=
  inferInstanceAs (Decidable (∀ k < n, _))

variable (L h size)

/-- The loop over `j` from `j` on, with `d` pages left to look at. It goes on
to the marking when they are all free, and to the next start when not. -/
theorem check_run (m : Mem) (i : Nat) (d : Nat) :
    ∀ j, j + d = i + (pageNum size).toNat →
      ∃ as, (mallocSystem L h size).Run (m, checkAt (pageNum size).toNat i j) as
        (m, if FreeRun m (pageDesc L j) d then takeAt (pageNum size).toNat i i
          else scanAt h (pageNum size).toNat (i + 1)) := by
  induction d with
  | zero =>
      intro j hj
      refine ⟨[], ?_⟩
      -- No page is left: the loop has run through.
      rw [checkAt, if_neg (by omega), if_pos (by simp [FreeRun])]
      exact System.Run.nil _
  | succ d ih =>
      intro j hj
      rw [checkAt, if_pos (by omega)]
      by_cases hfree : isFree m (pageDesc L j) = true
      · -- A free page: the rest of the loop decides.
        obtain ⟨as, hrun⟩ := ih (j + 1) (by omega)
        have hfirst : (mallocSystem L h size).Run (m, .check i j) [pageDesc L j]
            (m, checkAt (pageNum size).toNat i (j + 1)) :=
          access_run rfl (by simp [mallocStep, hfree])
        simp only [freeRun_succ, hfree, true_and]
        exact ⟨_, hfirst.append hrun⟩
      · -- A taken page ends the loop with `found` cleared.
        simp only [freeRun_succ, hfree]
        exact ⟨_, access_run (a := pageDesc L j) rfl (by simp [mallocStep, hfree])⟩

/-- One turn of the loop over `i`. It reads the descriptor of page `i`. -/
theorem scan_run (m : Mem) (i : Nat) :
    ∃ as, pageDesc L i ∈ as ∧ (mallocSystem L h size).Run (m, .scan i) as
      (m, if FreeRun m (pageDesc L i) (pageNum size).toNat
        then takeAt (pageNum size).toNat i i else scanAt h (pageNum size).toNat (i + 1)) := by
  have hpos := pageNum_pos size
  by_cases hfree : isFree m (pageDesc L i) = true
  · have hfirst : (mallocSystem L h size).Run (m, .scan i) [pageDesc L i]
        (m, checkAt (pageNum size).toNat i i) :=
      access_run rfl (by simp [mallocStep, hfree])
    obtain ⟨as, hrun⟩ := check_run L h size m i _ i rfl
    exact ⟨_, by simp, hfirst.append hrun⟩
  · have hrun : ¬ FreeRun m (pageDesc L i) (pageNum size).toNat := by
      intro hrun
      have h0 := hrun 0 hpos
      rw [add_ofNat_zero] at h0
      exact hfree h0
    rw [if_neg hrun]
    exact ⟨[pageDesc L i], by simp, access_run rfl (by simp [mallocStep, hfree])⟩

/-- The search up to start `i`, when no run of free pages starts before it.
It has read the descriptor of each page it passed. -/
theorem search_run (m : Mem) (i : Nat) (hi : i ≤ startPages h size)
    (hnone : ∀ l < i, ¬ FreeRun m (pageDesc L l) (pageNum size).toNat) :
    ∃ as, (∀ l < i, pageDesc L l ∈ as) ∧
      (mallocSystem L h size).Run (m, scanAt h (pageNum size).toNat 0) as
        (m, scanAt h (pageNum size).toNat i) := by
  induction i with
  | zero => exact ⟨[], by simp, System.Run.nil _⟩
  | succ i ih =>
      obtain ⟨as, hread, hrun⟩ := ih (by omega) fun l hl => hnone l (by omega)
      obtain ⟨bs, hmem, hturn⟩ := scan_run L h size m i
      rw [if_neg (hnone i (by omega))] at hturn
      have hat : scanAt h (pageNum size).toNat i = .scan i := if_pos (by exact hi)
      rw [hat] at hrun
      refine ⟨as ++ bs, fun l hl => ?_, hrun.append hturn⟩
      rcases Nat.lt_succ_iff_lt_or_eq.mp hl with hlt | rfl
      · simp [hread l hlt]
      · simp [hmem]

/-- The search settles on the first run of free pages. -/
theorem settle_run (m : Mem) {i : Nat} (hi : i < startPages h size)
    (hrun : FreeRun m (pageDesc L i) (pageNum size).toNat)
    (hfirst : ∀ l < i, ¬ FreeRun m (pageDesc L l) (pageNum size).toNat) :
    ∃ as, (mallocSystem L h size).Run (m, scanAt h (pageNum size).toNat 0) as
      (m, takeAt (pageNum size).toNat i i) := by
  obtain ⟨as, -, hsearch⟩ := search_run L h size m i (Nat.le_of_lt hi) hfirst
  obtain ⟨bs, -, hturn⟩ := scan_run L h size m i
  have hat : scanAt h (pageNum size).toNat i = .scan i := if_pos (by exact hi)
  rw [hat] at hsearch
  rw [if_pos hrun] at hturn
  exact ⟨_, hsearch.append hturn⟩

/-- The loop over `k`, with `d` pages left to take. -/
theorem take_run (i : Nat) (d : Nat) (hd : d ≤ 2 ^ 32) :
    ∀ (m : Mem) (k : Nat), k + d = i + (pageNum size).toNat →
      ∃ as, (mallocSystem L h size).Run (m, takeAt (pageNum size).toNat i k) as
        ((mallocTake m d (pageDesc L k)).1, .lastLoad i) := by
  induction d with
  | zero =>
      intro m k hk
      refine ⟨[], ?_⟩
      rw [takeAt, if_neg (by omega)]
      exact System.Run.nil _
  | succ d ih =>
      intro m k hk
      rw [takeAt, if_pos (by omega)]
      obtain ⟨as, hrun⟩ := ih (by omega) (setFlag m (pageDesc L k) pageTaken) (k + 1) (by omega)
      -- The load and the store of one `|=`.
      have hload : (mallocSystem L h size).Run (m, .takeLoad i k) [pageDesc L k]
          (m, .takeStore i k (m (pageDesc L k) ||| pageTaken)) :=
        access_run rfl rfl
      have hstore : (mallocSystem L h size).Run
          (m, .takeStore i k (m (pageDesc L k) ||| pageTaken)) [pageDesc L k]
          (setFlag m (pageDesc L k) pageTaken, takeAt (pageNum size).toNat i (k + 1)) :=
        access_run rfl rfl
      refine ⟨[pageDesc L k] ++ [pageDesc L k] ++ as, (hload.append hstore).append ?_⟩
      show (mallocSystem L h size).Run _ as
        ((mallocTake (setFlag m (pageDesc L k) pageTaken) d (pageDesc L k + 1#32)).1, _)
      have hnext : pageDesc L k + 1#32 = pageDesc L (k + 1) := pageDesc_add L k 1
      rw [hnext]
      exact hrun

/-- The housekeeping of `malloc` from its first load to the return. -/
theorem mark_run (m : Mem) (i : Nat) :
    ∃ as, (mallocSystem L h size).Run (m, takeAt (pageNum size).toNat i i) as
      (mallocMark m (pageNum size).toNat (pageDesc L i), .done (some i)) := by
  have hlt := (pageNum size).isLt
  obtain ⟨as, hrun⟩ := take_run L h size i (pageNum size).toNat (by omega) m i rfl
  -- The pointer has come to the page behind the block; the last one is just before
  -- it.
  have hptr : (mallocTake m (pageNum size).toNat (pageDesc L i)).2
      = pagePtr L (i + (pageNum size).toNat) := by
    rw [mallocTake_eq _ (by omega), pageDesc_add]
    rfl
  have hload : (mallocSystem L h size).Run
      ((mallocTake m (pageNum size).toNat (pageDesc L i)).1, .lastLoad i) _ _ :=
    access_run rfl rfl
  have hstore : (mallocSystem L h size).Run
      ((mallocTake m (pageNum size).toNat (pageDesc L i)).1,
        .lastStore i ((mallocTake m (pageNum size).toNat (pageDesc L i)).1
          (pagePtr L (i + (pageNum size).toNat) - 1#32) ||| pageLast)) _ _ :=
    access_run rfl rfl
  have hmark : mallocMark m (pageNum size).toNat (pageDesc L i)
      = setFlag (mallocTake m (pageNum size).toNat (pageDesc L i)).1
        ((mallocTake m (pageNum size).toNat (pageDesc L i)).2 - 1#32) pageLast := rfl
  rw [hmark, hptr]
  exact ⟨_, (hrun.append hload).append hstore⟩

/-- A call that runs on its own from a memory `m` ends, with the memory and
the result of `malloc` there. -/
theorem malloc_run (m : Mem) :
    ∃ as block, (mallocSystem L h size).Run (m, scanAt h (pageNum size).toNat 0) as
        ((malloc L { h with mem := m } size).1.mem, .done block) ∧
      (malloc L { h with mem := m } size).2 = returned h block := by
  rcases malloc_search L { h with mem := m } rfl (pageNum_pos size) with
    ⟨heq, hnone⟩ | ⟨i, hi, hrun, hfirst, heq⟩
  · obtain ⟨as, -, hsearch⟩ := search_run L h size m (startPages h size) (Nat.le_refl _) hnone
    have hat : scanAt h (pageNum size).toNat (startPages h size) = .done none :=
      if_neg (Nat.lt_irrefl _)
    rw [hat] at hsearch
    rw [heq]
    exact ⟨as, none, hsearch, rfl⟩
  · obtain ⟨as, hsettled⟩ := settle_run L h size m hi hrun hfirst
    obtain ⟨bs, hmark⟩ := mark_run L h size m i
    rw [heq]
    exact ⟨_, some i, hsettled.append hmark, rfl⟩

end Solo

/-! ### Requests for more pages than the pool has -/

/-- A request that fails cleanly: it returns `NULL`, touches no byte beyond
the table, and changes no byte. -/
structure FailsCleanly (L : HeapLayout) (h : Heap) (size : Word) : Prop where
  null : (malloc L h size).2 = 0#32
  touches : ∀ s₀ as s, (mallocSystem L h size).init s₀ → (mallocSystem L h size).Run s₀ as s →
    ∀ a ∈ as, InRange L.heapStart h.numPages.toNat a
  keeps : (malloc L h size).1.mem = h.mem

/-- For such a request the loop bound wraps and lies far behind the table. -/
theorem startPages_oversized {L : HeapLayout} {h : Heap} (hs : HeapStatics L h) {size : Word}
    (hsize : h.numPages.toNat < (pageNum size).toNat) :
    startPages h size = 2 ^ 32 + h.numPages.toNat - (pageNum size).toNat ∧
      h.numPages.toNat < startPages h size := by
  have hlt := poolPages_lt L
  have hnum := hs.numPages
  have hpages := toNat_pageNum size
  unfold startPages
  bv_omega

/-- A request for more pages than the pool has never fails cleanly, on no
memory. Either it finds free pages behind the table and marks them, or it
has read the byte behind the table on its way. -/
theorem oversized_never_clean {L : HeapLayout} {h : Heap} (hs : HeapStatics L h) {size : Word}
    (hsize : h.numPages.toNat < (pageNum size).toNat) : ¬ FailsCleanly L h size := by
  intro hclean
  have hlt := poolPages_lt L
  have hnum := hs.numPages
  have hbound := (startPages_oversized hs hsize).2
  rcases malloc_search L h rfl (pageNum_pos size) with ⟨-, hnone⟩ | ⟨i, -, hrun, -, heq⟩
  · -- The search passes the page behind the last one of the pool.
    obtain ⟨as, hread, hrun⟩ := search_run L h size h.mem (h.numPages.toNat + 1) hbound
      fun l hl => hnone l (by omega)
    have hin := hclean.touches _ as _ rfl hrun _ (hread h.numPages.toNat (by omega))
    rw [pageDesc, inRange_add_ofNat _ (by omega)] at hin
    exact Nat.lt_irrefl _ hin
  · -- The first page of the block was free and is taken.
    have hkeeps := hclean.keeps
    rw [heq] at hkeeps
    have hfree := hrun 0 (pageNum_pos size)
    rw [add_ofNat_zero] at hfree
    have hmark := isFree_mallocMark h.mem (L.heapStart + BitVec.ofNat 32 i) (pageNum_pos size)
      (Nat.le_of_lt (pageNum size).isLt) (L.heapStart + BitVec.ofNat 32 i)
    rw [show mallocMark _ _ _ = h.mem from hkeeps] at hmark
    refine (hmark.mp hfree).2 ?_
    have hin := (inRange_add_ofNat (L.heapStart + BitVec.ofNat 32 i) (n := (pageNum size).toNat)
      (by decide : 0 < 2 ^ 32)).mpr (pageNum_pos size)
    rwa [add_ofNat_zero] at hin

/-- The main result for one page more than the fresh heap has. -/
theorem freshHeap_oversized : ¬ FailsCleanly readmeLayout freshHeap 134145519#32 :=
  oversized_never_clean freshHeap_statics (by rw [freshHeap_numPages]; decide)

/-- On the fresh heap that request gets the first page of the pool, and
`malloc` marks the byte behind the table as the last page of the block. -/
theorem oversized_beyond_pool :
    (requestSystem readmeLayout).Reachable ⟨freshHeap, []⟩ ∧
    freshHeap.numPages.toNat < (pageNum 134145519#32).toNat ∧
    (malloc readmeLayout freshHeap 134145519#32).2 = 0x80091100#32 ∧
    freshHeap.mem (pageDesc readmeLayout freshHeap.numPages.toNat) = 0#8 ∧
    (malloc readmeLayout freshHeap 134145519#32).1.mem
      (pageDesc readmeLayout freshHeap.numPages.toNat) = 0b11#8 ∧
    ¬ FailsCleanly readmeLayout freshHeap 134145519#32 := by
  have hnum := freshHeap_numPages
  have hpages : (pageNum 134145519#32).toNat = freshHeap.numPages.toNat + 1 := by
    rw [hnum]
    decide
  have hstart : freshHeap.allocStart = 0x80091100#32 := by
    apply BitVec.eq_of_toNat_eq
    rw [freshHeap_statics.allocStart]
    decide
  have hzero : ∀ x, freshHeap.mem x = 0#8 := by
    intro x
    simp [freshHeap, pageInit_mem]
  have hover : freshHeap.numPages.toNat < (pageNum 134145519#32).toNat := by omega
  have hbound := startPages_oversized freshHeap_statics hover
  -- The very first page starts a run of free bytes that is long enough.
  have hmalloc := malloc_of_first (i := 0) readmeLayout freshHeap hpages (by omega) (by omega)
    (fun _ _ => isFree_pageInit_zero _ _) (by simp)
  have hptr : (malloc readmeLayout freshHeap 134145519#32).2 = 0x80091100#32 := by
    rw [hmalloc, hstart]
    decide
  refine ⟨System.Reachable.of_init ⟨_, rfl⟩, hover, hptr, hzero _, ?_,
    fun hclean => ?_⟩
  · have hmark := mallocMark_apply freshHeap.mem (readmeLayout.heapStart + BitVec.ofNat 32 0)
      (n := freshHeap.numPages.toNat + 1) (by omega) (by omega) (k := freshHeap.numPages.toNat)
      (by omega)
    rw [if_neg (by omega), if_pos rfl, hzero, add_ofNat_zero] at hmark
    rw [hmalloc, add_ofNat_zero]
    simp only [pageDesc, hmark]
    decide
  · have hnull := hclean.null
    rw [hptr] at hnull
    exact absurd hnull (by decide)

end MiniRiscvOs.Proofs
