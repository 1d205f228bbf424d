import MiniRiscvOs.Proofs.HeapInvariant

/-!
# `MiniRiscvOs.Proofs.HeapRequests`: what one request gets

`HeapInvariant` follows the table over whole runs. This file is about the
answer to one request: how many bytes a block holds, which run of free
pages it gets, and where in RAM the block lies.

* `malloc_room_iff`: the macro `pageNum` divides by `PAGE_SIZE + 1`, so it
  rounds up correctly exactly for the sizes that `RoundsUp` names. The
  smallest size that gets too few pages is 513.
* `malloc_firstFit_iff`: the search stops one page early, so it misses a run
  of free pages that ends with the last page of the pool.
* `heapLayout_sound`: no computation of `page_init` wraps, and each block
  lies in RAM behind the table.

Each theorem about one call holds for any memory under the statics that
`page_init` set. The requests are those of `requestSystem`, which takes
every size.
-/

set_option autoImplicit false

namespace MiniRiscvOs.Proofs

open MiniRiscvOs.Lib
open MiniRiscvOs.Kernel

/-! ### Requests of any size -/

/-- One call. A `malloc` takes any size, and a `free` gets `NULL` or the
pointer of a live block. -/
def RequestStep (L : HeapLayout) (s : HeapState) : HeapCall → HeapState → Prop
  | .malloc size, t =>
      t.heap = (malloc L s.heap size).1 ∧
      t.live = if (malloc L s.heap size).2 = 0#32 then s.live
        else ((malloc L s.heap size).2, size) :: s.live
  | .free p, t =>
      free L s.heap p = some t.heap ∧
      ((p = 0#32 ∧ t.live = s.live) ∨ ∃ b ∈ s.live, b.1 = p ∧ t.live = s.live.erase b)

/-- The runs of allocator calls with no bound on the sizes. -/
def requestSystem (L : HeapLayout) : System HeapState HeapCall where
  init s := ∃ m, s = ⟨pageInit L m, []⟩
  step := RequestStep L

section Statics

variable {L : HeapLayout}

/-- `malloc` writes the memory only. -/
theorem HeapStatics.malloc {h : Heap} (hs : HeapStatics L h) (size : Word) :
    HeapStatics L (malloc L h size).1 := by
  rcases malloc_search L h rfl (pageNum_pos size) with ⟨heq, -⟩ | ⟨i, -, -, -, heq⟩
  · rwa [heq]
  · rw [heq]
    exact hs.withMem _

/-- `free` writes the memory only. -/
theorem HeapStatics.free {h h' : Heap} (hs : HeapStatics L h) {p : Addr}
    (hfree : free L h p = some h') : HeapStatics L h' := by
  unfold Kernel.free at hfree
  split at hfree
  · obtain rfl := Option.some.inj hfree
    exact hs
  · obtain ⟨m, -, rfl⟩ := Option.map_eq_some_iff.mp hfree
    exact hs.withMem m

/-- The statics are those of `page_init` in every run. -/
theorem heapStatics_reachable {s : HeapState} (h : (requestSystem L).Reachable s) :
    HeapStatics L s.heap := by
  refine System.invariant (M := requestSystem L) (I := fun s => HeapStatics L s.heap) ?_ ?_ h
  · rintro s ⟨m, rfl⟩
    exact heapStatics_pageInit L m
  · intro s e t hs hstep
    cases e with
    | malloc size =>
        rw [hstep.1]
        exact hs.malloc size
    | free p => exact hs.free hstep.1

/-- `malloc` in the terms of the pool: it takes the first run of free pages
that ends before the last page. -/
theorem malloc_first {h : Heap} (hs : HeapStatics L h) {size : Word} {i : Nat}
    (hin : i + (pageNum size).toNat < poolPages L)
    (hrun : FreeRun h.mem (pageDesc L i) (pageNum size).toNat)
    (hfirst : ∀ l < i, ¬ FreeRun h.mem (pageDesc L l) (pageNum size).toNat) :
    malloc L h size
      = ({ h with mem := mallocMark h.mem (pageNum size).toNat (pageDesc L i) },
          pageAddr L i) := by
  rw [← allocStart_add L hs i]
  exact malloc_of_first L h rfl (pageNum_pos size)
    (by rw [startPages_eq hs (by omega)]; omega) hrun hfirst

end Statics

/-! ### Room for the size -/

/-- `npages` pages hold `size` bytes, and no smaller positive number of
pages does. -/
structure EnoughRoom (size : Word) (npages : Nat) : Prop where
  holds : size.toNat ≤ npages * pageSize
  least : ∀ m, 0 < m → size.toNat ≤ m * pageSize → npages ≤ m

/-- The sizes that `pageNum` rounds up correctly. -/
def RoundsUp (size : Word) : Prop :=
  size.toNat % (pageSize + 1) + size.toNat / (pageSize + 1) ≤ pageSize

instance (size : Word) : Decidable (RoundsUp size) :=
  inferInstanceAs (Decidable (_ ≤ _))

/-- A descriptor that a call turned from free to taken. -/
def Marked (h h' : Heap) (x : Addr) : Prop :=
  isFree h.mem x = true ∧ isFree h'.mem x = false

/-- The bytes a caller may use: `size` bytes from the pointer on. -/
def InBlock (b : Block) (x : Addr) : Prop := InRange b.1 b.2.toNat x

instance (b : Block) (x : Addr) : Decidable (InBlock b x) :=
  inferInstanceAs (Decidable (InRange _ _ _))

/-- Each page that `pageNum` counts is short of one byte in its divisor, so
`q` of them miss `q` bytes. The last page makes up for at most 256. -/
theorem enoughRoom_iff (size : Word) :
    EnoughRoom size (pageNum size).toNat ↔ RoundsUp size := by
  rw [toNat_pageNum]
  unfold RoundsUp pageSize
  constructor
  · intro h
    have := h.holds
    unfold pageSize at this
    omega
  · intro h
    refine ⟨?_, fun m hpos hm => ?_⟩
    · unfold pageSize
      omega
    · unfold pageSize at hm
      omega

/-- The pages a successful `malloc` marks are the ones `pageNum` counts,
from the page of the pointer on. -/
theorem marked_malloc {L : HeapLayout} {h : Heap} {size : Word}
    (hne : (malloc L h size).2 ≠ 0#32) :
    ∃ i, (malloc L h size).2 = h.allocStart + BitVec.ofNat 32 (i * pageSize) ∧
      ∀ x, Marked h (malloc L h size).1 x
        ↔ InRange (pageDesc L i) (pageNum size).toNat x := by
  have hlt := (pageNum size).isLt
  rcases malloc_search L h rfl (pageNum_pos size) with ⟨heq, -⟩ | ⟨i, -, hrun, -, heq⟩
  · rw [heq] at hne
    exact absurd rfl hne
  · refine ⟨i, by rw [heq], fun x => ?_⟩
    have hmark := isFree_mallocMark h.mem (pageDesc L i) (pageNum_pos size) (by omega) x
    rw [heq, Marked, ← Bool.not_eq_true, pageDesc] at *
    rw [hmark]
    constructor
    · rintro ⟨hfree, hnot⟩
      by_contra hout
      exact hnot ⟨hfree, hout⟩
    · intro hin
      -- Every page of the run was free.
      obtain ⟨k, hk, rfl⟩ := exists_offset (L.heapStart + BitVec.ofNat 32 i) x
      exact ⟨hrun k ((inRange_add_ofNat _ hk).mp hin), fun hboth => hboth.2 hin⟩

/-- The requests that no rounding error and no wrapped loop bound spoils. -/
def Fits (s : HeapState) : HeapCall → Prop
  | .malloc size => RoundsUp size ∧ (pageNum size).toNat ≤ s.heap.numPages.toNat
  | .free _ => True

section Runs

variable {L : HeapLayout}

/-- A step whose request fits is a step of `heapSystem`. -/
theorem RequestStep.heapStep {s t : HeapState} {e : HeapCall} (hstep : RequestStep L s e t)
    (hfits : Fits s e) : HeapStep L s e t := by
  cases e with
  | malloc size => exact ⟨hfits.2, hstep⟩
  | free p => exact hstep

/-- The byte at offset `k` of a live block lies on a page of the block, when
the size rounds up. -/
theorem page_of_inBlock {s : HeapState} (hinv : HeapInv L s) {b : Block} (hb : b ∈ s.live)
    (hsize : RoundsUp b.2) {x : Addr} (hx : InBlock b x) :
    (x.toNat - poolStart L) / pageSize ∈ blockSpan L b := by
  obtain ⟨S, hown, -⟩ := hinv.encoded
  have hroom := ((enoughRoom_iff b.2).mpr hsize).holds
  have hin := S.inside b (by rwa [hown])
  have hlen : (blockSpan L b).len = (pageNum b.2).toNat := rfl
  have hpos := pageNum_pos b.2
  have hsum := poolStart_add L
  have hstart : b.1.toNat = poolStart L + (blockSpan L b).first * 256 := by
    conv_lhs => rw [hinv.aligned b hb]
    exact toNat_pageAddr L (by omega)
  -- The block ends before the end of RAM, so its addresses do not wrap.
  have hadd : x.toNat = b.1.toNat + (x - b.1).toNat := by
    unfold InBlock InRange at hx
    unfold pageSize at hroom
    bv_omega
  unfold InBlock InRange at hx
  unfold pageSize at hroom ⊢
  rw [Span.mem_def]
  omega

/-- The bytes of two live blocks never meet when every size rounds up. -/
theorem blocks_disjoint {s : HeapState} (hinv : HeapInv L s)
    (hsize : ∀ b ∈ s.live, RoundsUp b.2) :
    s.live.Pairwise fun a b => ∀ x, InBlock a x → ¬ InBlock b x := by
  obtain ⟨S, hown, -⟩ := hinv.encoded
  have hspans := S.disjoint
  rw [hown] at hspans
  refine hspans.imp_of_mem fun {a b} ha hb hab x hxa hxb => ?_
  exact hab _ (page_of_inBlock hinv ha (hsize a ha) hxa)
    (page_of_inBlock hinv hb (hsize b hb) hxb)

/-- The step lemma: a call that fits keeps the table an encoding of the live
blocks and adds no size that is rounded down. -/
theorem fits_step {s t : HeapState} {e : HeapCall}
    (hs : HeapInv L s ∧ ∀ b ∈ s.live, RoundsUp b.2) (hfits : Fits s e)
    (hstep : RequestStep L s e t) : HeapInv L t ∧ ∀ b ∈ t.live, RoundsUp b.2 := by
  have hheap := hstep.heapStep hfits
  cases e with
  | malloc size =>
      refine ⟨heapInv_malloc hs.1 hheap, fun b hb => ?_⟩
      rw [hstep.2] at hb
      split at hb
      · exact hs.2 b hb
      · rcases List.mem_cons.mp hb with rfl | hb
        · exact hfits.1
        · exact hs.2 b hb
  | free p =>
      refine ⟨heapInv_free hs.1 hheap, fun b hb => ?_⟩
      rcases hstep.2 with ⟨-, hlive⟩ | ⟨c, -, -, hlive⟩
      · exact hs.2 b (by rwa [hlive] at hb)
      · rw [hlive] at hb
        exact hs.2 b (List.mem_of_mem_erase hb)

end Runs

/-- The room that `malloc` gives.

* On every heap and for every size: the pages a successful call marks are
  enough for the size, and no more than needed, exactly when `pageNum`
  rounds that size up.
* In every run whose requests all fit, the bytes of two live blocks are
  disjoint. -/
theorem malloc_room_iff (L : HeapLayout) :
    (∀ (h : Heap) (size : Word), (malloc L h size).2 ≠ 0#32 →
      ∃ i, (malloc L h size).2 = h.allocStart + BitVec.ofNat 32 (i * pageSize) ∧
        (∀ x, Marked h (malloc L h size).1 x
          ↔ InRange (pageDesc L i) (pageNum size).toNat x) ∧
        (EnoughRoom size (pageNum size).toNat ↔ RoundsUp size)) ∧
    (∀ s₀ es s, (requestSystem L).init s₀ → (requestSystem L).Run s₀ es s →
      System.Run.Allowed (requestSystem L) Fits s₀ es →
      s.live.Pairwise fun a b => ∀ x, InBlock a x → ¬ InBlock b x) := by
  constructor
  · intro h size hne
    obtain ⟨i, hptr, hmarked⟩ := marked_malloc hne
    exact ⟨i, hptr, hmarked, enoughRoom_iff size⟩
  · rintro s₀ es s ⟨m, rfl⟩ hrun hfits
    have hinv := System.invariant_of_allowed (M := requestSystem L)
      (I := fun s => HeapInv L s ∧ ∀ b ∈ s.live, RoundsUp b.2)
      (fun _ _ _ => fits_step) ⟨heapInv_init L m, by simp⟩ hrun hfits
    exact blocks_disjoint hinv.1 hinv.2

/-- The memory after `page_init`: the table is zero, the rest is kept. -/
theorem pageInit_mem (L : HeapLayout) (m : Mem) (x : Addr) :
    (pageInit L m).mem x = if InRange L.heapStart (poolPages L) x then 0#8 else m x := by
  have hlt := poolPages_lt L
  show clearPages _ (pageInit L m).numPages.toNat _ x = _
  rw [toNat_pageInit_numPages, clearPages_eq _ (by omega), mapRange]

/-- On cleared memory every descriptor is free after `page_init`. -/
theorem isFree_pageInit_zero (L : HeapLayout) (x : Addr) :
    isFree (pageInit L fun _ => 0#8).mem x = true := by
  simp [isFree, pageInit_mem]

/-- The heap after `page_init` on a memory of zeros, in the layout of the
log in the README. -/
def freshHeap : Heap := pageInit readmeLayout fun _ => 0#8

/-- Its words are those of `page_init`. -/
theorem freshHeap_statics : HeapStatics readmeLayout freshHeap :=
  heapStatics_pageInit readmeLayout _

/-- The number of pages on the README's layout. -/
theorem freshHeap_numPages : freshHeap.numPages.toNat = 521967 :=
  freshHeap_statics.numPages.trans (by decide)

/-- On a pool with no page taken, the first block starts at the first page,
and a second one right behind it. -/
theorem two_requests {L : HeapLayout} {h : Heap} (hs : HeapStatics L h)
    (hfree : ∀ x, isFree h.mem x = true) {size size' : Word}
    (hfit : (pageNum size).toNat + (pageNum size').toNat < poolPages L) :
    (malloc L h size).2 = pageAddr L 0 ∧
      (malloc L (malloc L h size).1 size').2 = pageAddr L (pageNum size).toNat := by
  have hlt := poolPages_lt L
  have hpos := pageNum_pos size
  have hpos' := pageNum_pos size'
  have hfirst : malloc L h size = _ :=
    malloc_first hs (i := 0) (by omega) (fun _ _ => hfree _) (by simp)
  -- The first block takes the first pages and no others.
  have hmark := isFree_mallocMark h.mem (pageDesc L 0) hpos (by omega)
  have hin : ∀ k < 2 ^ 32, InRange (pageDesc L 0) (pageNum size).toNat (pageDesc L k)
      ↔ k < (pageNum size).toNat := by
    intro k hk
    rw [pageDesc, pageDesc, add_ofNat_zero, inRange_add_ofNat _ hk]
  refine ⟨by rw [hfirst], ?_⟩
  rw [hfirst, malloc_first (hs.withMem _) (i := (pageNum size).toNat) (by omega)]
  · -- The pages behind the first block are free.
    intro k hk
    rw [pageDesc_add]
    refine (hmark _).mpr ⟨hfree _, ?_⟩
    rw [hin _ (by omega)]
    omega
  · -- Each start before them lies on a page of the first block.
    intro l hl hrun
    have h0 := hrun 0 hpos'
    rw [add_ofNat_zero] at h0
    exact ((hmark _).mp h0).2 ((hin l (by omega)).mpr hl)

/-- Both blocks are live after the two requests. -/
theorem live_two_requests {L : HeapLayout} {h : Heap} (hs : HeapStatics L h)
    (hfree : ∀ x, isFree h.mem x = true) {size size' : Word}
    (hfit : (pageNum size).toNat + (pageNum size').toNat < poolPages L) :
    (afterMalloc L (afterMalloc L ⟨h, []⟩ size) size').live
      = [(pageAddr L (pageNum size).toNat, size'), (pageAddr L 0, size)] := by
  have hlt := poolPages_lt L
  obtain ⟨hptr, hsecond⟩ := two_requests hs hfree hfit
  have hne := pageAddr_ne_zero L (i := 0) (by omega)
  have hne' := pageAddr_ne_zero L (i := (pageNum size).toNat) (by omega)
  simp [afterMalloc, hsecond, hptr, hne, hne']

/-- The heap part is what `malloc` leaves. -/
theorem afterMalloc_heap (L : HeapLayout) (s : HeapState) (size : Word) :
    (afterMalloc L s size).heap = (malloc L s.heap size).1 := rfl

/-- A `malloc` of any size is a step. -/
theorem reachable_malloc {L : HeapLayout} {s : HeapState} (hs : (requestSystem L).Reachable s)
    (size : Word) : (requestSystem L).Reachable (afterMalloc L s size) :=
  hs.step (e := .malloc size) ⟨rfl, rfl⟩

/-- After `malloc(513)` and `malloc(1)` on the fresh heap, the second block
lies inside of the first: 513 bytes got two pages. -/
theorem malloc_513_overlap :
    (requestSystem readmeLayout).Reachable
      (afterMalloc readmeLayout (afterMalloc readmeLayout ⟨freshHeap, []⟩ 513#32) 1#32) ∧
    (afterMalloc readmeLayout (afterMalloc readmeLayout ⟨freshHeap, []⟩ 513#32) 1#32).live
      = [(0x80091300#32, 1#32), (0x80091100#32, 513#32)] ∧
    ¬ EnoughRoom 513#32 (pageNum 513#32).toNat ∧
    InBlock (0x80091100#32, 513#32) 0x80091300#32 ∧
    InBlock (0x80091300#32, 1#32) 0x80091300#32 := by
  have hinit : (requestSystem readmeLayout).Reachable ⟨freshHeap, []⟩ :=
    System.Reachable.of_init ⟨_, rfl⟩
  refine ⟨reachable_malloc (reachable_malloc hinit _) _, ?_, ?_, by decide, by decide⟩
  · rw [live_two_requests freshHeap_statics (isFree_pageInit_zero _) (by decide)]
    decide
  · rw [enoughRoom_iff]
    decide

/-! ### The search for a run of free pages -/

/-- A complete first-fit search over the pool: `NULL` exactly when no run of
`npages` free pages lies in the pool, and the first such run otherwise. -/
structure FirstFit (L : HeapLayout) (h : Heap) (size : Word) : Prop where
  null_iff : (malloc L h size).2 = 0#32 ↔
    ∀ i, i + (pageNum size).toNat ≤ h.numPages.toNat →
      ¬ FreeRun h.mem (pageDesc L i) (pageNum size).toNat
  least : (malloc L h size).2 ≠ 0#32 →
    ∃ i, i + (pageNum size).toNat ≤ h.numPages.toNat ∧
      FreeRun h.mem (pageDesc L i) (pageNum size).toNat ∧
      (∀ l < i, ¬ FreeRun h.mem (pageDesc L l) (pageNum size).toNat) ∧
      (malloc L h size).2 = h.allocStart + BitVec.ofNat 32 (i * pageSize)

/-- The search of `malloc` on any table, for a request of at most the whole
pool. It is complete exactly when some run of free pages ends before the
last page of the pool, or the last `npages` pages are no such run: the bound
`i < _num_pages - npages` leaves out the last possible start. -/
theorem malloc_firstFit_iff {L : HeapLayout} {h : Heap} (hs : HeapStatics L h) {size : Word}
    (hsize : (pageNum size).toNat ≤ h.numPages.toNat) :
    FirstFit L h size ↔
      (∃ i, i + (pageNum size).toNat < h.numPages.toNat ∧
        FreeRun h.mem (pageDesc L i) (pageNum size).toNat) ∨
      ¬ FreeRun h.mem (pageDesc L (h.numPages.toNat - (pageNum size).toNat))
        (pageNum size).toNat := by
  have hpos := pageNum_pos size
  rw [hs.numPages] at hsize
  constructor
  · intro hfit
    by_contra hmissed
    simp only [not_or, not_exists, not_and, not_not] at hmissed
    obtain ⟨hnone, hlast⟩ := hmissed
    rcases malloc_cases hs hsize with ⟨heq, -⟩ | ⟨i, hi, hrun, -, -⟩
    · -- `NULL`, although the last pages of the pool are free.
      refine hfit.null_iff.mp (by rw [heq]) _ ?_ hlast
      rw [hs.numPages]
      omega
    · exact hnone i (by rwa [hs.numPages]) hrun
  · intro hmet
    rcases malloc_cases hs hsize with ⟨heq, hnone⟩ | ⟨i, hi, hrun, hfirst, heq⟩
    · -- No run ends before the last page, so the last pages are no run.
      have hlast : ¬ FreeRun h.mem (pageDesc L (poolPages L - (pageNum size).toNat))
          (pageNum size).toNat := by
        rcases hmet with ⟨i, hi, hrun⟩ | hlast
        · rw [hs.numPages] at hi
          exact absurd hrun (hnone i hi)
        · rwa [hs.numPages] at hlast
      refine ⟨⟨fun _ i hi hrun => ?_, fun _ => by rw [heq]⟩, fun hne => ?_⟩
      · -- A start below the bound was searched, the one at it is the last.
        rw [hs.numPages] at hi
        rcases Nat.lt_or_eq_of_le hi with hlt | heqi
        · exact hnone i hlt hrun
        · have hidx : i = poolPages L - (pageNum size).toNat := by omega
          rw [hidx] at hrun
          exact hlast hrun
      · rw [heq] at hne
        exact absurd rfl hne
    · -- A block was found: it is not NULL, and the first run in the pool.
      have hne := pageAddr_ne_zero L (i := i) (by omega)
      refine ⟨⟨fun hnull => ?_, fun hnone => ?_⟩, fun _ => ?_⟩
      · rw [heq] at hnull
        exact absurd hnull hne
      · refine absurd hrun (hnone i ?_)
        rw [hs.numPages]
        omega
      · refine ⟨i, ?_, hrun, hfirst, ?_⟩
        · rw [hs.numPages]
          omega
        · rw [heq, allocStart_add L hs]

/-- The main result at the first request of the README's log. -/
theorem freshHeap_firstFit : FirstFit readmeLayout freshHeap 1024#32 :=
  (malloc_firstFit_iff freshHeap_statics
    (by rw [freshHeap_numPages]; decide)).mpr
    (Or.inl ⟨0, by rw [freshHeap_numPages]; decide, fun _ _ => isFree_pageInit_zero _ _⟩)

/-- On the fresh heap every page is free, and a request for all of them
returns `NULL`. -/
theorem wholePool_null :
    (requestSystem readmeLayout).Reachable ⟨freshHeap, []⟩ ∧
    (pageNum 134145262#32).toNat = freshHeap.numPages.toNat ∧
    FreeRun freshHeap.mem (pageDesc readmeLayout 0) freshHeap.numPages.toNat ∧
    malloc readmeLayout freshHeap 134145262#32 = (freshHeap, 0#32) ∧
    ¬ FirstFit readmeLayout freshHeap 134145262#32 := by
  have hnum : (pageNum 134145262#32).toNat = 521967 := by decide
  have hpool : poolPages readmeLayout = 521967 := by decide
  have hrun : ∀ n, FreeRun freshHeap.mem (pageDesc readmeLayout 0) n :=
    fun _ _ _ => isFree_pageInit_zero _ _
  -- The loop has no start to try.
  have hnull := malloc_of_none readmeLayout freshHeap hnum (by decide)
    (by
      rw [startPages_eq freshHeap_statics (by omega), hnum, hpool]
      simp)
  refine ⟨System.Reachable.of_init ⟨_, rfl⟩, hnum.trans freshHeap_numPages.symm, hrun _, hnull,
    fun hfit => ?_⟩
  have hpages := freshHeap_numPages
  exact hfit.null_iff.mp (by rw [hnull]) 0 (by omega) (hrun _)

/-! ### The layout -/

/-- Each `uint32_t` computation of `page_init` gives the number that the
same computation gives without a bound, so none of them wraps. -/
structure PageInitExact (L : HeapLayout) (h : Heap) : Prop where
  reserve : (2048#32 * BitVec.ofNat 32 pageSize).toNat = 2048 * 256
  heapPages : (L.heapSize / BitVec.ofNat 32 pageSize).toNat = L.heapSize.toNat / 256
  reserve_le : 2048 ≤ L.heapSize.toNat / 256
  numPages : h.numPages.toNat = L.heapSize.toNat / 256 - 2048
  table : (L.heapStart + 2048#32 * BitVec.ofNat 32 pageSize).toNat
    = L.heapStart.toNat + 2048 * 256
  rounded : (L.heapStart + 2048#32 * BitVec.ofNat 32 pageSize
      + ((1#32 <<< pageOrder) - 1#32)).toNat
    = L.heapStart.toNat + 2048 * 256 + 255
  allocStart : h.allocStart.toNat = (L.heapStart.toNat + 2048 * 256 + 255) / 256 * 256
  poolSize : (BitVec.ofNat 32 pageSize * h.numPages).toNat = 256 * h.numPages.toNat
  allocEnd : h.allocEnd.toNat = h.allocStart.toNat + 256 * h.numPages.toNat

/-- `page_init` computes the exact values: nothing wraps. -/
theorem pageInit_exact (L : HeapLayout) (m : Mem) : PageInitExact L (pageInit L m) := by
  have h1 := L.end_eq
  have h2 := L.reserve_le
  have hs := heapStatics_pageInit L m
  have hsum := poolStart_add L
  -- Both constants are literals in the code, and the sums stay below `2 ^ 32`.
  have hconst : 2048#32 * BitVec.ofNat 32 pageSize = 524288#32 := by decide
  have horder : (1#32 <<< pageOrder) - 1#32 = 255#32 := by decide
  constructor
  · rw [hconst]
    rfl
  · simp [pageSize]
  · omega
  · exact hs.numPages
  · rw [hconst]
    bv_omega
  · rw [hconst, horder]
    bv_omega
  · exact hs.allocStart
  · rw [BitVec.toNat_mul, hs.numPages]
    show 256 * poolPages L % 2 ^ 32 = _
    omega
  · rw [hs.numPages, hs.allocStart, hs.allocEnd]
    omega

/-- A block of `npages` pages from page `i` on, as the layout of `h` has it:
its address is computed without a wrap, and its bytes lie in the pool, in
RAM and behind the descriptor table. -/
structure BlockInPool (L : HeapLayout) (h : Heap) (i npages : Nat) (p : Addr) : Prop where
  pointer : p.toNat = h.allocStart.toNat + i * pageSize
  fits : h.allocStart.toNat + (i + npages) * pageSize ≤ h.allocEnd.toNat
  inPool : ∀ x, InRange p (npages * pageSize) x →
    h.allocStart.toNat ≤ x.toNat ∧ x.toNat < h.allocEnd.toNat
  inRam : ∀ x, InRange p (npages * pageSize) x → 0x80000000 ≤ x.toNat ∧ x.toNat < 0x88000000
  notInTable : ∀ x, InRange p (npages * pageSize) x → ¬ InRange L.heapStart h.numPages.toNat x

/-- A run of pages below the number of pages lies in the pool. -/
theorem blockInPool {L : HeapLayout} {h : Heap} (hs : HeapStatics L h) {i npages : Nat}
    (hin : i + npages ≤ poolPages L) (hi : i < poolPages L) :
    BlockInPool L h i npages (pageAddr L i) := by
  have hptr := toNat_pageAddr L hi
  have hsum := poolStart_add L
  have hram := L.ram_le
  have hend := L.end_eq
  have hnum : poolPages L = L.heapSize.toNat / 256 - 2048 := rfl
  have hstart : poolStart L = (L.heapStart.toNat + 2048 * 256 + 255) / 256 * 256 := rfl
  -- A byte of the block, as a number: the block ends before RAM does.
  have hbyte : ∀ x, InRange (pageAddr L i) (npages * pageSize) x →
      (pageAddr L i).toNat ≤ x.toNat ∧ x.toNat < (pageAddr L i).toNat + npages * 256 := by
    intro x hx
    unfold InRange pageSize at hx
    bv_omega
  constructor
  · rw [hptr, hs.allocStart]
    rfl
  · rw [hs.allocStart, hs.allocEnd]
    unfold pageSize
    omega
  · intro x hx
    have := hbyte x hx
    rw [hs.allocStart, hs.allocEnd]
    omega
  · intro x hx
    have := hbyte x hx
    omega
  · intro x hx hin'
    have := hbyte x hx
    rw [hs.numPages] at hin'
    unfold InRange at hin'
    bv_omega

/-- The layout that `page_init` computes, for every heap start and every
memory.

* No computation wraps.
* The descriptor table ends at or before the pool, the pool starts at a
  multiple of the page size and ends in RAM.
* Each block that a later `malloc` takes lies in the pool, so it lies in RAM
  and behind the table. -/
theorem heapLayout_sound (L : HeapLayout) (m : Mem) :
    PageInitExact L (pageInit L m) ∧
    L.heapStart.toNat + (pageInit L m).numPages.toNat ≤ (pageInit L m).allocStart.toNat ∧
    (pageInit L m).allocStart.toNat % pageSize = 0 ∧
    (pageInit L m).allocEnd.toNat ≤ 0x88000000 ∧
    ∀ (s : HeapState) (size : Word), (requestSystem L).Reachable s →
      (pageNum size).toNat ≤ s.heap.numPages.toNat → (malloc L s.heap size).2 ≠ 0#32 →
      ∃ i, FreeRun s.heap.mem (pageDesc L i) (pageNum size).toNat ∧
        (malloc L s.heap size).1
          = { s.heap with mem := mallocMark s.heap.mem (pageNum size).toNat (pageDesc L i) } ∧
        BlockInPool L (pageInit L m) i (pageNum size).toNat (malloc L s.heap size).2 := by
  have hinit := heapStatics_pageInit L m
  have hlt := poolPages_lt L
  have hstart : poolStart L = (L.heapStart.toNat + 2048 * 256 + 255) / 256 * 256 := rfl
  refine ⟨pageInit_exact L m, ?_, ?_, ?_, ?_⟩
  · rw [hinit.numPages, hinit.allocStart]
    omega
  · rw [hinit.allocStart, hstart]
    exact Nat.mul_mod_left _ _
  · exact Nat.le_of_eq hinit.allocEnd
  · intro s size hs hsize hne
    -- Every block of a later call is cut from the same pool.
    have hst := heapStatics_reachable hs
    rw [hst.numPages] at hsize
    rcases malloc_cases hst hsize with ⟨heq, -⟩ | ⟨i, hi, hrun, -, heq⟩
    · rw [heq] at hne
      exact absurd rfl hne
    · rw [heq]
      exact ⟨i, hrun, rfl, blockInPool hinit (by omega) (by omega)⟩

/-- The second block of `page_test` in the layout of the README. -/
theorem secondBlock_inPool :
    ∃ i, BlockInPool readmeLayout (pageInit readmeLayout fun _ => 0#8) i (pageNum 512#32).toNat
      0x80091500#32 := by
  obtain ⟨s, hs⟩ : ∃ s, s = afterMalloc readmeLayout ⟨freshHeap, []⟩ 1024#32 := ⟨_, rfl⟩
  have hreach : (requestSystem readmeLayout).Reachable s := by
    rw [hs]
    exact reachable_malloc (System.Reachable.of_init ⟨_, rfl⟩) 1024#32
  have hheap : s.heap = (malloc readmeLayout freshHeap 1024#32).1 := by
    rw [hs, afterMalloc_heap]
  have hptr : (malloc readmeLayout s.heap 512#32).2 = 0x80091500#32 := by
    rw [hheap]
    exact (two_requests freshHeap_statics (isFree_pageInit_zero _) (by decide)).2.trans (by decide)
  have hnum : s.heap.numPages.toNat = 521967 := by
    rw [hheap, (freshHeap_statics.malloc 1024#32).numPages]
    decide
  obtain ⟨i, -, -, hin⟩ := (heapLayout_sound readmeLayout fun _ => 0#8).2.2.2.2 s 512#32 hreach
    (by rw [hnum]; decide) (by rw [hptr]; decide)
  rw [hptr] at hin
  exact ⟨i, hin⟩

end MiniRiscvOs.Proofs
