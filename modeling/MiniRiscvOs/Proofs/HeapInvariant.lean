import MiniRiscvOs.Lib.Spans
import MiniRiscvOs.Lib.System
import MiniRiscvOs.Proofs.AllocLoops

/-!
# `MiniRiscvOs.Proofs.HeapInvariant`: the table encodes the live blocks

The allocator stores no block list. This file puts the list back as ghost
state and proves that the descriptor table is its encoding in every run of
`malloc` and `free` calls.

A live block is the pointer `malloc` returned, with the size it was asked
for. `blockSpan` is the run of pages the block claims. `HeapInv` says that
the live blocks form a `SpanSet` inside the pool and that each descriptor
holds the flags of its mark (`flagsOf`): `00` free, `01` inside a block,
`11` last page of a block.

`heapInv_malloc` and `heapInv_free` are the two steps. A `malloc` relies on
free pages holding exactly `0`, because it sets flags with `|=`. A `free`
relies on the marks of its block, because they are what stops its walk.
-/

set_option autoImplicit false

namespace MiniRiscvOs.Proofs

open MiniRiscvOs.Lib
open MiniRiscvOs.Kernel

/-! ### The layout that `page_init` computes -/

/-- Masking the low byte off rounds down to a multiple of 256. -/
theorem toNat_and_not_255 (x : Word) : (x &&& ~~~255#32).toNat = x.toNat / 256 * 256 := by
  -- The mask is a shift to the right and back.
  have hmask : ~~~255#32 = BitVec.allOnes 32 <<< 8 := by decide
  have hshift : x &&& ~~~255#32 = (x >>> 8) <<< 8 := by
    rw [hmask]
    ext i hi
    simp only [BitVec.getElem_and, BitVec.getElem_shiftLeft, BitVec.getElem_allOnes,
      BitVec.getElem_ushiftRight]
    -- The low eight bits go, the others stay where they are.
    by_cases h8 : i < 8
    · simp [h8]
    · have hidx : 8 + (i - 8) = i := by omega
      simp [h8, hidx, BitVec.getLsbD_eq_getElem hi]
  rw [hshift, BitVec.toNat_shiftLeft, BitVec.toNat_ushiftRight, Nat.shiftRight_eq_div_pow,
    Nat.shiftLeft_eq, Nat.mod_eq_of_lt]
  have := x.isLt
  omega

/-- `_align_page` rounds up to a multiple of the page size. -/
theorem toNat_alignPage {a : Addr} (ha : a.toNat + 255 < 2 ^ 32) :
    (alignPage a).toNat = (a.toNat + 255) / 256 * 256 := by
  have horder : (1#32 <<< pageOrder) - 1#32 = 255#32 := by decide
  show ((a + ((1#32 <<< pageOrder) - 1#32)) &&& ~~~((1#32 <<< pageOrder) - 1#32)).toNat = _
  rw [horder, toNat_and_not_255, BitVec.toNat_add]
  show (a.toNat + 255) % 2 ^ 32 / 256 * 256 = _
  rw [Nat.mod_eq_of_lt ha]

/-- `_num_pages`. -/
def poolPages (L : HeapLayout) : Nat := L.heapSize.toNat / 256 - 2048

/-- `_alloc_start`, as a number. -/
def poolStart (L : HeapLayout) : Nat := (L.heapStart.toNat + 2048 * 256 + 255) / 256 * 256

/-- The two roundings of `page_init` cancel: the pool ends where the RAM
ends. -/
theorem poolStart_add (L : HeapLayout) : poolStart L + 256 * poolPages L = 0x88000000 := by
  have h1 := L.end_eq
  have h2 := L.reserve_le
  unfold poolStart poolPages
  omega

/-- The pool lies in RAM and is far from filling the address space. -/
theorem poolPages_lt (L : HeapLayout) : poolPages L < 2 ^ 19 := by
  have h1 := L.end_eq
  have h2 := L.ram_le
  unfold poolPages
  omega

/-- The pool does not start at the null address. -/
theorem poolStart_pos (L : HeapLayout) : 0 < poolStart L := by
  have := L.ram_le
  unfold poolStart
  omega

/-- `_num_pages` after `page_init`. -/
theorem toNat_pageInit_numPages (L : HeapLayout) (m : Mem) :
    (pageInit L m).numPages.toNat = poolPages L := by
  have h2 := L.reserve_le
  have hlt := L.heapSize.isLt
  show (L.heapSize / BitVec.ofNat 32 pageSize - 2048#32).toNat = _
  have hdiv : (L.heapSize / BitVec.ofNat 32 pageSize).toNat = L.heapSize.toNat / 256 := by
    rw [BitVec.toNat_udiv]
    rfl
  -- The reserve fits in the heap, so the subtraction does not wrap.
  rw [BitVec.toNat_sub_of_le, hdiv]
  · rfl
  · rw [BitVec.le_def, hdiv]
    show 2048 ≤ _
    omega

/-- `_alloc_start` after `page_init`. -/
theorem toNat_pageInit_allocStart (L : HeapLayout) (m : Mem) :
    (pageInit L m).allocStart.toNat = poolStart L := by
  have h1 := L.end_eq
  have h2 := L.reserve_le
  -- RAM ends far below the end of the address space.
  have hsum : (L.heapStart + 2048#32 * BitVec.ofNat 32 pageSize).toNat
      = L.heapStart.toNat + 2048 * 256 := by
    have hconst : 2048#32 * BitVec.ofNat 32 pageSize = 524288#32 := by decide
    rw [hconst, BitVec.toNat_add]
    show (L.heapStart.toNat + 524288) % 2 ^ 32 = _
    omega
  show (alignPage _).toNat = _
  rw [toNat_alignPage (by rw [hsum]; omega), hsum]
  rfl

/-- `_alloc_end` after `page_init`. -/
theorem toNat_pageInit_allocEnd (L : HeapLayout) (m : Mem) :
    (pageInit L m).allocEnd.toNat = 0x88000000 := by
  have hsum := poolStart_add L
  show ((pageInit L m).allocStart + BitVec.ofNat 32 pageSize * (pageInit L m).numPages).toNat = _
  rw [BitVec.toNat_add, BitVec.toNat_mul, toNat_pageInit_allocStart, toNat_pageInit_numPages]
  show (poolStart L + 256 * poolPages L % 2 ^ 32) % 2 ^ 32 = _
  omega

/-- `pageNum` as a number. -/
theorem toNat_pageNum (size : Word) : (pageNum size).toNat = size.toNat / 257 + 1 := by
  have hlt := size.isLt
  have hdiv : (size / BitVec.ofNat 32 (pageSize + 1)).toNat = size.toNat / 257 := by
    rw [BitVec.toNat_udiv]
    rfl
  rw [pageNum, BitVec.toNat_add, hdiv]
  show (size.toNat / 257 + 1) % 2 ^ 32 = _
  omega

/-- Every request takes a page. -/
theorem pageNum_pos (size : Word) : 0 < (pageNum size).toNat := by
  rw [toNat_pageNum]
  omega

/-! ### Blocks and their encoding -/

/-- The statics that `page_init` set. No other function writes them. -/
structure HeapStatics (L : HeapLayout) (h : Heap) : Prop where
  numPages : h.numPages.toNat = poolPages L
  allocStart : h.allocStart.toNat = poolStart L
  allocEnd : h.allocEnd.toNat = 0x88000000

/-- Writing the memory keeps the statics. -/
theorem HeapStatics.withMem {L : HeapLayout} {h : Heap} (hs : HeapStatics L h) (m : Mem) :
    HeapStatics L { h with mem := m } :=
  ⟨hs.numPages, hs.allocStart, hs.allocEnd⟩

/-- The address of the `j`-th page descriptor. -/
def pageDesc (L : HeapLayout) (j : Nat) : Addr := L.heapStart + BitVec.ofNat 32 j

/-- `k` descriptors on. -/
theorem pageDesc_add (L : HeapLayout) (i k : Nat) :
    pageDesc L i + BitVec.ofNat 32 k = pageDesc L (i + k) :=
  add_ofNat_add _ _ _

/-- The flags in the `j`-th page descriptor. -/
def pageFlags (L : HeapLayout) (h : Heap) (j : Nat) : Byte := h.mem (pageDesc L j)

/-- The address of the `i`-th page of the pool. -/
def pageAddr (L : HeapLayout) (i : Nat) : Addr := BitVec.ofNat 32 (poolStart L + i * 256)

/-- A live block: the pointer `malloc` returned and the size it was asked
for. -/
abbrev Block := Addr × Word

/-- The pages a block claims: `npages` from the page of its pointer on. -/
def blockSpan (L : HeapLayout) (b : Block) : Span where
  first := (b.1.toNat - poolStart L) / 256
  len := (pageNum b.2).toNat

/-- The flags the table holds for a mark. -/
def flagsOf : Mark → Byte
  | .free => 0#8
  | .body => pageTaken
  | .last => pageTaken ||| pageLast

/-- A page counts as free exactly when its mark is `free`. -/
theorem flagsOf_free_iff (k : Mark) : flagsOf k &&& pageTaken = 0#8 ↔ k = .free := by
  cases k <;> decide

/-- The heap with the ghost list of live blocks. -/
structure HeapState where
  heap : Heap
  live : List Block

/-- A call of the allocator. -/
inductive HeapCall where
  | malloc (size : Word)
  | free (p : Addr)
deriving DecidableEq

/-- One call. The size of a `malloc` takes at most the whole pool, and a
`free` gets `NULL` or the pointer of a live block. -/
def HeapStep (L : HeapLayout) (s : HeapState) : HeapCall → HeapState → Prop
  | .malloc size, t =>
      (pageNum size).toNat ≤ s.heap.numPages.toNat ∧
      t.heap = (malloc L s.heap size).1 ∧
      t.live = if (malloc L s.heap size).2 = 0#32 then s.live
        else ((malloc L s.heap size).2, size) :: s.live
  | .free p, t =>
      free L s.heap p = some t.heap ∧
      ((p = 0#32 ∧ t.live = s.live) ∨ ∃ b ∈ s.live, b.1 = p ∧ t.live = s.live.erase b)

/-- The runs of allocator calls that start with `page_init` on any memory. -/
def heapSystem (L : HeapLayout) : System HeapState HeapCall where
  init s := ∃ m, s = ⟨pageInit L m, []⟩
  step := HeapStep L

/-- The representation invariant: the statics, the live blocks as disjoint
spans inside the pool, each pointer at the start of its first page, and the
table as the encoding of the spans. -/
structure HeapInv (L : HeapLayout) (s : HeapState) : Prop where
  statics : HeapStatics L s.heap
  aligned : ∀ b ∈ s.live, b.1 = pageAddr L (blockSpan L b).first
  encoded : ∃ S : SpanSet (blockSpan L) (poolPages L), S.owners = s.live ∧
    ∀ j < poolPages L, pageFlags L s.heap j = flagsOf (S.marks j)

/-! ### Addresses of pages -/

section Addresses

variable (L : HeapLayout)

/-- No page address wraps: it is below the end of RAM. -/
theorem toNat_pageAddr {i : Nat} (hi : i < poolPages L) :
    (pageAddr L i).toNat = poolStart L + i * 256 := by
  have hsum := poolStart_add L
  rw [pageAddr, BitVec.toNat_ofNat, Nat.mod_eq_of_lt (by omega)]

/-- No page of the pool is at the null address. -/
theorem pageAddr_ne_zero {i : Nat} (hi : i < poolPages L) : pageAddr L i ≠ 0#32 := by
  intro h
  have hpos := poolStart_pos L
  have := congrArg BitVec.toNat h
  rw [toNat_pageAddr L hi] at this
  simp at this
  omega

/-- The block of a page address starts at that page. -/
theorem blockSpan_pageAddr {i : Nat} (hi : i < poolPages L) (size : Word) :
    blockSpan L (pageAddr L i, size) = ⟨i, (pageNum size).toNat⟩ := by
  unfold blockSpan
  rw [toNat_pageAddr L hi]
  congr 1
  omega

/-- The address `malloc` computes for page `i`. -/
theorem allocStart_add {h : Heap} (hs : HeapStatics L h) (i : Nat) :
    h.allocStart + BitVec.ofNat 32 (i * pageSize) = pageAddr L i := by
  -- An address is determined by its number.
  have hstart : h.allocStart = BitVec.ofNat 32 (poolStart L) := by
    rw [← hs.allocStart, BitVec.ofNat_toNat, BitVec.setWidth_eq]
  rw [hstart, ← BitVec.ofNat_add]
  rfl

/-- `free` finds the descriptor of the page its pointer starts. -/
theorem freePage_pageAddr {h : Heap} (hs : HeapStatics L h) {i : Nat} (hi : i < poolPages L) :
    L.heapStart + (pageAddr L i - h.allocStart) / BitVec.ofNat 32 pageSize = pageDesc L i := by
  have hsum := poolStart_add L
  have hsub : (pageAddr L i - h.allocStart).toNat = i * 256 := by
    -- The page lies in the pool, so the difference does not wrap.
    have hle : h.allocStart ≤ pageAddr L i := by
      rw [BitVec.le_def, toNat_pageAddr L hi, hs.allocStart]
      omega
    rw [BitVec.toNat_sub_of_le hle, toNat_pageAddr L hi, hs.allocStart]
    omega
  have hdiv : (pageAddr L i - h.allocStart) / BitVec.ofNat 32 pageSize = BitVec.ofNat 32 i := by
    apply BitVec.eq_of_toNat_eq
    rw [BitVec.toNat_udiv, hsub, BitVec.toNat_ofNat]
    show i * 256 / 256 = i % 2 ^ 32
    omega
  rw [hdiv]
  rfl

end Addresses

/-! ### The invariant holds at the start -/

/-- `page_init` leaves every descriptor of the pool at zero. -/
theorem pageFlags_pageInit (L : HeapLayout) (m : Mem) {j : Nat} (hj : j < poolPages L) :
    pageFlags L (pageInit L m) j = 0#8 := by
  have hlt := poolPages_lt L
  show clearPages m (pageInit L m).numPages.toNat L.heapStart (pageDesc L j) = 0#8
  rw [toNat_pageInit_numPages, clearPages_eq _ (by omega)]
  exact if_pos ((inRange_add_ofNat L.heapStart (by omega)).mpr hj)

/-- `page_init` sets the three words. -/
theorem heapStatics_pageInit (L : HeapLayout) (m : Mem) : HeapStatics L (pageInit L m) where
  numPages := toNat_pageInit_numPages L m
  allocStart := toNat_pageInit_allocStart L m
  allocEnd := toNat_pageInit_allocEnd L m

/-- The invariant holds of the fresh heap. -/
theorem heapInv_init (L : HeapLayout) (m : Mem) : HeapInv L ⟨pageInit L m, []⟩ where
  statics := heapStatics_pageInit L m
  aligned := by simp
  encoded := by
    refine ⟨SpanSet.empty _ _, rfl, fun j hj => ?_⟩
    rw [pageFlags_pageInit L m hj, SpanSet.marks_empty]
    rfl

/-! ### `malloc` keeps the invariant -/

section Steps

variable {L : HeapLayout}

/-- The loop of `malloc` stops one page before the last possible start. -/
theorem startPages_eq {h : Heap} (hs : HeapStatics L h) {size : Word}
    (hsize : (pageNum size).toNat ≤ poolPages L) :
    startPages h size = poolPages L - (pageNum size).toNat := by
  rw [startPages, BitVec.ofNat_toNat, BitVec.setWidth_eq, BitVec.toNat_sub_of_le, hs.numPages]
  rw [BitVec.le_def, hs.numPages]
  exact hsize

/-- `malloc` on a heap with the statics of `page_init`, for a request of at
most the whole pool. It fails and leaves the heap as it was, or it takes
the first run of free pages that ends before the last page of the pool. -/
theorem malloc_cases {h : Heap} (hs : HeapStatics L h) {size : Word}
    (hsize : (pageNum size).toNat ≤ poolPages L) :
    (malloc L h size = (h, 0#32) ∧
      ∀ i, i + (pageNum size).toNat < poolPages L →
        ¬ FreeRun h.mem (pageDesc L i) (pageNum size).toNat) ∨
    ∃ i, i + (pageNum size).toNat < poolPages L ∧
      FreeRun h.mem (pageDesc L i) (pageNum size).toNat ∧
      (∀ l < i, ¬ FreeRun h.mem (pageDesc L l) (pageNum size).toNat) ∧
      malloc L h size
        = ({ h with mem := mallocMark h.mem (pageNum size).toNat (pageDesc L i) },
            pageAddr L i) := by
  have hbound := startPages_eq hs hsize
  rcases malloc_search L h rfl (pageNum_pos size) with ⟨heq, hnone⟩ | ⟨i, hi, hrun, hfirst, heq⟩
  · exact Or.inl ⟨heq, fun i hi => hnone i (by omega)⟩
  · refine Or.inr ⟨i, by omega, hrun, hfirst, ?_⟩
    rw [heq, allocStart_add L hs]
    rfl

/-- On an encoded table a descriptor reads as free exactly when no live
block claims its page. -/
theorem isFree_iff_marks {h : Heap} {κ : Type} {span : κ → Span}
    {S : SpanSet span (poolPages L)}
    (henc : ∀ j < poolPages L, pageFlags L h j = flagsOf (S.marks j)) {j : Nat}
    (hj : j < poolPages L) :
    isFree h.mem (pageDesc L j) = true ↔ S.marks j = .free := by
  have hflags : h.mem (pageDesc L j) = flagsOf (S.marks j) := henc j hj
  rw [isFree, hflags, decide_eq_true_iff]
  exact flagsOf_free_iff _

/-- The descriptors after a successful `malloc` at page `i`: the flags of a
block on its own pages, and the old flags elsewhere. The pages were free,
so `|=` on them is an assignment. -/
theorem pageFlags_mallocMark {h : Heap} {i n : Nat} (hpos : 0 < n)
    (hin : i + n ≤ poolPages L) (hzero : ∀ k < n, pageFlags L h (i + k) = 0#8)
    {j : Nat} (hj : j < poolPages L) :
    pageFlags L { h with mem := mallocMark h.mem n (pageDesc L i) } j
      = if j ∈ (⟨i, n⟩ : Span) then flagsOf ((⟨i, n⟩ : Span).mark j)
        else pageFlags L h j := by
  have hlt := poolPages_lt L
  show mallocMark h.mem n (pageDesc L i) (pageDesc L j) = _
  -- Measure the descriptor from the start of the block, with wrap-around.
  obtain ⟨k, hk, hdesc⟩ := exists_offset (pageDesc L i) (pageDesc L j)
  rw [hdesc, mallocMark_apply h.mem (pageDesc L i) hpos (by omega) hk, ← hdesc]
  have hcell : pageDesc L i + BitVec.ofNat 32 k = L.heapStart + BitVec.ofNat 32 (i + k) :=
    pageDesc_add L i k
  by_cases hmem : j ∈ (⟨i, n⟩ : Span)
  · obtain ⟨hle, hlt'⟩ := Span.mem_mk.mp hmem
    -- The page lies in the block, at offset `j - i`.
    have hkj : k = j - i := by
      have hj' : pageDesc L j = pageDesc L i + BitVec.ofNat 32 (j - i) := by
        show L.heapStart + BitVec.ofNat 32 j = L.heapStart + BitVec.ofNat 32 i + _
        rw [add_ofNat_add]
        congr 2
        omega
      exact (add_ofNat_inj (pageDesc L i) hk (by omega)).mp (hdesc.symm.trans hj')
    have hz : h.mem (pageDesc L j) = 0#8 := by
      have := hzero (j - i) (by omega)
      rwa [show i + (j - i) = j by omega] at this
    rw [if_pos hmem, hz]
    -- Flags set on a zero byte are the flags of the mark.
    by_cases hlast : j + 1 = i + n
    · rw [Span.mark_last hmem hlast, if_neg (by omega), if_pos (by omega)]
      rfl
    · have hbody : j + 1 < i + n := by omega
      rw [Span.mark_body hmem hbody, if_pos (by omega)]
      rfl
  -- The page lies outside of the block, and so does its descriptor.
  · have hkn : n ≤ k := by
      by_contra hlt'
      have hjk : L.heapStart + BitVec.ofNat 32 j = L.heapStart + BitVec.ofNat 32 (i + k) := by
        rw [← hcell]
        exact hdesc
      have := (add_ofNat_inj L.heapStart (by omega) (by omega)).mp hjk
      exact hmem (Span.mem_mk.mpr ⟨by omega, by omega⟩)
    rw [if_neg hmem, if_neg (by omega), if_neg (by omega)]
    rfl

/-- A `malloc` step keeps the invariant. A new block lies on free pages, so
its span misses every live span. -/
theorem heapInv_malloc {s t : HeapState} {size : Word} (hinv : HeapInv L s)
    (hstep : HeapStep L s (.malloc size) t) : HeapInv L t := by
  obtain ⟨hsize, hheap, hlive⟩ := hstep
  obtain ⟨S, hown, henc⟩ := hinv.encoded
  rw [hinv.statics.numPages] at hsize
  obtain ⟨h', live'⟩ := t
  simp only at hheap hlive
  rcases malloc_cases hinv.statics hsize with ⟨heq, -⟩ | ⟨i, hi, hrun, -, heq⟩
  · -- `NULL`: nothing changed.
    rw [heq] at hheap hlive
    rw [if_pos rfl] at hlive
    subst hheap hlive
    exact hinv
  -- The block at page `i`: its pages were free, so no live block claims them.
  · have hip : i < poolPages L := by omega
    rw [heq] at hheap hlive
    rw [if_neg (pageAddr_ne_zero L hip)] at hlive
    subst hheap hlive
    have hspan := blockSpan_pageAddr L hip size
    have hfree : ∀ j ∈ blockSpan L (pageAddr L i, size), S.marks j = .free := by
      intro j hj
      rw [hspan] at hj
      obtain ⟨hle, hlt⟩ := Span.mem_mk.mp hj
      have := hrun (j - i) (by omega)
      rw [pageDesc_add, show i + (j - i) = j by omega] at this
      exact (isFree_iff_marks henc (by omega)).mp this
    have hnew : ∀ b ∈ S.owners, (blockSpan L (pageAddr L i, size)).Disjoint (blockSpan L b) :=
      fun b hb j hj => (S.marks_eq_free_iff j).mp (hfree j hj) b hb
    have hin : (blockSpan L (pageAddr L i, size)).first
        + (blockSpan L (pageAddr L i, size)).len ≤ poolPages L := by
      rw [hspan]
      show i + (pageNum size).toNat ≤ _
      omega
    refine ⟨hinv.statics.withMem _, ?_,
      S.add _ hin hnew, by rw [SpanSet.owners_add, hown], ?_⟩
    · intro b hb
      rcases List.mem_cons.mp hb with rfl | hb
      · rw [hspan]
      · exact hinv.aligned b hb
    · intro j hj
      have hzero : ∀ k < (pageNum size).toNat, pageFlags L s.heap (i + k) = 0#8 := by
        intro k hk
        rw [henc (i + k) (by omega), hfree (i + k)]
        · rfl
        · rw [hspan]
          exact Span.mem_mk.mpr ⟨by omega, by omega⟩
      rw [pageFlags_mallocMark (pageNum_pos size) (by omega) hzero hj, SpanSet.marks_add,
        hspan, henc j hj]
      split <;> rfl

/-! ### `free` keeps the invariant -/

/-- `free` on the pointer of a live block clears exactly the descriptors of
that block: the walk meets its `last` mark before it leaves the block. -/
theorem free_block {s : HeapState} (hinv : HeapInv L s) {b : Block} (hb : b ∈ s.live) :
    free L s.heap b.1 = some { s.heap with
      mem := mapRange (fun _ => 0#8) s.heap.mem (pageDesc L (blockSpan L b).first)
        (blockSpan L b).len } := by
  obtain ⟨S, hown, henc⟩ := hinv.encoded
  have hlt := poolPages_lt L
  have hsum := poolStart_add L
  have hb' : b ∈ S.owners := by rwa [hown]
  have hpos : 0 < (blockSpan L b).len := pageNum_pos b.2
  have hin := S.inside b hb'
  have hip : (blockSpan L b).first < poolPages L := by omega
  -- The descriptors of the block hold its marks.
  have hmarks : ∀ k < (blockSpan L b).len,
      s.heap.mem (pageDesc L (blockSpan L b).first + BitVec.ofNat 32 k)
        = flagsOf ((blockSpan L b).mark ((blockSpan L b).first + k)) := by
    intro k hk
    rw [pageDesc_add, ← S.marks_of_mem hb' (Span.mem_def.mpr ⟨by omega, by omega⟩)]
    exact henc _ (by omega)
  -- The pointer passes the guard of `free`.
  have hguard : ¬ (b.1 = 0#32 ∨ s.heap.allocEnd ≤ b.1) := by
    rw [hinv.aligned b hb, BitVec.le_def, hinv.statics.allocEnd, toNat_pageAddr L hip]
    have := pageAddr_ne_zero L hip
    simp only [this, false_or]
    omega
  rw [free_of_inside L _ hguard, hinv.aligned b hb, freePage_pageAddr L hinv.statics hip,
    freeWalk_block _ hpos (by omega) _ _ _ (by omega)]
  · rfl
  · intro k hk
    rw [hmarks k (by omega),
      Span.mark_body (Span.mem_def.mpr ⟨by omega, by omega⟩) (by omega)]
    rfl
  · rw [hmarks _ (by omega),
      Span.mark_last (Span.mem_def.mpr ⟨by omega, by omega⟩) (by omega)]
    rfl

/-- The descriptors after the walk over the pages of a span. -/
theorem pageFlags_clear {h : Heap} {sp : Span} (hin : sp.first + sp.len ≤ poolPages L)
    {j : Nat} (hj : j < poolPages L) :
    pageFlags L { h with mem := mapRange (fun _ => 0#8) h.mem (pageDesc L sp.first) sp.len } j
      = if j ∈ sp then 0#8 else pageFlags L h j := by
  have hlt := poolPages_lt L
  have hrange : InRange (pageDesc L sp.first) sp.len (pageDesc L j) ↔ j ∈ sp := by
    rw [Span.mem_def]
    unfold InRange pageDesc
    bv_omega
  show mapRange (fun _ => 0#8) h.mem (pageDesc L sp.first) sp.len (pageDesc L j) = _
  unfold mapRange
  simp only [hrange]
  rfl

/-- Freeing a live block keeps the invariant with that block gone. -/
theorem heapInv_free_block {s : HeapState} (hinv : HeapInv L s) {b : Block}
    (hb : b ∈ s.live) :
    HeapInv L ⟨{ s.heap with
      mem := mapRange (fun _ => 0#8) s.heap.mem (pageDesc L (blockSpan L b).first)
        (blockSpan L b).len }, s.live.erase b⟩ := by
  obtain ⟨S, hown, henc⟩ := hinv.encoded
  have hb' : b ∈ S.owners := by rwa [hown]
  refine ⟨hinv.statics.withMem _,
    fun c hc => hinv.aligned c (List.mem_of_mem_erase hc), S.remove b,
    by rw [SpanSet.owners_remove, hown], fun j hj => ?_⟩
  have hflags := pageFlags_clear (h := s.heap) (S.inside b hb') hj
  have hmarks := S.marks_remove hb' j
  have hold := henc j hj
  -- Inside of the block the table is cleared, outside it keeps its marks.
  by_cases hmem : j ∈ blockSpan L b
  · rw [if_pos hmem] at hflags hmarks
    rw [hmarks]
    exact hflags
  · rw [if_neg hmem] at hflags hmarks
    rw [hmarks]
    exact hflags.trans hold

/-- A `free` step keeps the invariant. -/
theorem heapInv_free {s t : HeapState} {p : Addr} (hinv : HeapInv L s)
    (hstep : HeapStep L s (.free p) t) : HeapInv L t := by
  obtain ⟨hfree, ⟨rfl, hlive⟩ | ⟨b, hb, rfl, hlive⟩⟩ := hstep
  · -- `NULL`: nothing changed.
    obtain ⟨h', live'⟩ := t
    rw [free, if_pos (Or.inl rfl)] at hfree
    simp only [Option.some.injEq] at hfree hlive
    subst hfree hlive
    exact hinv
  · obtain ⟨h', live'⟩ := t
    rw [free_block hinv hb] at hfree
    simp only [Option.some.injEq] at hfree hlive
    subst hfree hlive
    exact heapInv_free_block hinv hb

/-- The representation invariant holds in every run. -/
theorem heapInv_reachable {s : HeapState} (h : (heapSystem L).Reachable s) : HeapInv L s := by
  refine System.invariant (M := heapSystem L) ?_ ?_ h
  · rintro s ⟨m, rfl⟩
    exact heapInv_init L m
  · intro s e t hinv hstep
    cases e with
    | malloc size => exact heapInv_malloc hinv hstep
    | free p => exact heapInv_free hinv hstep

/-! ### The table, read back as the set of live blocks -/

/-- The table is the encoding of the live blocks, in the terms of the
comment over `struct Page`: their page runs are disjoint and inside the
pool, `01` on every page of a run but the last, `11` on the last, and `00`
on every page of no run. -/
structure TableEncodes (L : HeapLayout) (s : HeapState) : Prop where
  statics : HeapStatics L s.heap
  disjoint : s.live.Pairwise fun a b => (blockSpan L a).Disjoint (blockSpan L b)
  inside : ∀ b ∈ s.live,
    (blockSpan L b).first + (blockSpan L b).len ≤ s.heap.numPages.toNat
  body : ∀ b ∈ s.live, ∀ j ∈ blockSpan L b,
    j + 1 < (blockSpan L b).first + (blockSpan L b).len → pageFlags L s.heap j = 0b01#8
  last : ∀ b ∈ s.live, ∀ j ∈ blockSpan L b,
    j + 1 = (blockSpan L b).first + (blockSpan L b).len → pageFlags L s.heap j = 0b11#8
  free : ∀ j < s.heap.numPages.toNat, (∀ b ∈ s.live, j ∉ blockSpan L b) →
    pageFlags L s.heap j = 0b00#8

/-- The invariant has the encoding of the table. -/
theorem tableEncodes_of_inv {s : HeapState} (hinv : HeapInv L s) : TableEncodes L s := by
  obtain ⟨S, hown, henc⟩ := hinv.encoded
  have hnum := hinv.statics.numPages
  have hin : ∀ b ∈ s.live, (blockSpan L b).first + (blockSpan L b).len ≤ poolPages L := by
    intro b hb
    exact S.inside b (by rwa [hown])
  -- The flags of a page are those of its place in the block.
  have hflags : ∀ b ∈ s.live, ∀ j ∈ blockSpan L b,
      pageFlags L s.heap j = flagsOf ((blockSpan L b).mark j) := by
    intro b hb j hj
    have hlt := (Span.mem_def.mp hj).2
    have := hin b hb
    rw [henc j (by omega), S.marks_of_mem (by rwa [hown]) hj]
  refine ⟨hinv.statics, by rw [← hown]; exact S.disjoint, ?_, ?_, ?_, ?_⟩
  · intro b hb
    rw [hnum]
    exact hin b hb
  · intro b hb j hj hlt
    rw [hflags b hb j hj, Span.mark_body hj hlt]
    rfl
  · intro b hb j hj hlast
    rw [hflags b hb j hj, Span.mark_last hj hlast]
    rfl
  · intro j hj hnone
    rw [hnum] at hj
    rw [henc j hj, S.marks_of_not_mem (by rwa [hown])]
    rfl

/-- Free every block of a list, first to last. -/
def freeAll (L : HeapLayout) (h : Heap) (blocks : List Block) : Option Heap :=
  blocks.foldlM (fun h b => free L h b.1) h

/-- Freeing the live blocks in any order ends in a heap with no live block.
Induction on the order; each block is live when its turn comes. -/
theorem heapInv_freeAll (order : List Block) :
    ∀ {s : HeapState}, HeapInv L s → order.Perm s.live →
      ∃ h', freeAll L s.heap order = some h' ∧ HeapInv L ⟨h', []⟩ := by
  induction order with
  | nil =>
      intro s hinv hperm
      have hlive : s.live = [] := by simpa using hperm.symm
      obtain ⟨h, live⟩ := s
      subst hlive
      exact ⟨h, rfl, hinv⟩
  | cons b rest ih =>
      intro s hinv hperm
      -- The first block of the order is live, the rest are live after it.
      have hb : b ∈ s.live := hperm.subset List.mem_cons_self
      have hrest : rest.Perm (s.live.erase b) :=
        (List.cons_perm_iff_perm_erase.mp hperm).2
      obtain ⟨h', hall, hinv'⟩ := ih (heapInv_free_block hinv hb) hrest
      refine ⟨h', ?_, hinv'⟩
      show (free L s.heap b.1 >>= fun h => freeAll L h rest) = _
      rw [free_block hinv hb]
      exact hall

/-- The heap in every run of allocator calls from `page_init` on.

* The table encodes the live blocks.
* `free` on a live block returns, clears the descriptors of that block, and
  writes no other byte; `free(NULL)` changes nothing.
* A `malloc` that returns `NULL` leaves the heap as it was.
* Freeing all live blocks, in any order, gives back the table of
  `page_init`. -/
theorem heap_encodes_live_blocks (L : HeapLayout) (s : HeapState)
    (hs : (heapSystem L).Reachable s) :
    TableEncodes L s ∧
    (∀ b ∈ s.live, ∃ h', free L s.heap b.1 = some h' ∧
      (∀ j ∈ blockSpan L b, h'.mem (pageDesc L j) = 0#8) ∧
      ∀ x, (∀ j ∈ blockSpan L b, x ≠ pageDesc L j) → h'.mem x = s.heap.mem x) ∧
    free L s.heap 0#32 = some s.heap ∧
    (∀ size, (pageNum size).toNat ≤ s.heap.numPages.toNat →
      (malloc L s.heap size).2 = 0#32 → (malloc L s.heap size).1 = s.heap) ∧
    (∀ order : List Block, order.Perm s.live →
      ∃ h', freeAll L s.heap order = some h' ∧
        ∀ m, ∀ j < s.heap.numPages.toNat,
          pageFlags L h' j = pageFlags L (pageInit L m) j) := by
  have hinv := heapInv_reachable hs
  have hlt := poolPages_lt L
  have henc := tableEncodes_of_inv hinv
  refine ⟨henc, ?_, if_pos (Or.inl rfl), ?_, ?_⟩
  · intro b hb
    have hin := henc.inside b hb
    rw [hinv.statics.numPages] at hin
    refine ⟨_, free_block hinv hb, ?_, ?_⟩
    · intro j hj
      have hjlt := (Span.mem_def.mp hj).2
      have hflags := pageFlags_clear (h := s.heap) hin (j := j) (by omega)
      rwa [if_pos hj] at hflags
    · intro x hx
      refine if_neg fun hrange => ?_
      -- An address in the range is the descriptor of a page of the block.
      obtain ⟨k, hk, rfl⟩ := exists_offset (pageDesc L (blockSpan L b).first) x
      rw [inRange_add_ofNat _ hk] at hrange
      refine hx ((blockSpan L b).first + k) (Span.mem_def.mpr ⟨by omega, by omega⟩) ?_
      exact pageDesc_add L _ _
  · intro size hsize hnull
    rw [hinv.statics.numPages] at hsize
    rcases malloc_cases hinv.statics hsize with ⟨heq, -⟩ | ⟨i, hi, -, -, heq⟩
    · rw [heq]
    · rw [heq] at hnull
      exact absurd hnull (pageAddr_ne_zero L (by omega))
  -- With no live block left, every descriptor is free.
  · intro order hperm
    obtain ⟨h', hall, hinv'⟩ := heapInv_freeAll order hinv hperm
    refine ⟨h', hall, fun m j hj => ?_⟩
    rw [hinv.statics.numPages] at hj
    have hzero := (tableEncodes_of_inv hinv').free j (by rwa [hinv'.statics.numPages])
      (by simp)
    rw [hzero, pageFlags_pageInit L m hj]

end Steps

/-- The layout of the log in the allocator's README. -/
def readmeLayout : HeapLayout where
  heapStart := 0x8001100c#32
  heapSize := 0x07feeff4#32
  ram_le := by decide
  end_eq := by decide
  reserve_le := by decide

/-- The heap after a `malloc`. -/
def afterMalloc (L : HeapLayout) (s : HeapState) (size : Word) : HeapState where
  heap := (malloc L s.heap size).1
  live := if (malloc L s.heap size).2 = 0#32 then s.live
    else ((malloc L s.heap size).2, size) :: s.live

/-- The heap of `page_test` after its three calls of `malloc`. -/
def pageTestState : HeapState :=
  afterMalloc readmeLayout (afterMalloc readmeLayout
    (afterMalloc readmeLayout ⟨pageInit readmeLayout fun _ => 0xff#8, []⟩ 1024#32) 512#32) 4#32

/-- The calls are a run from the fresh heap. -/
theorem pageTestState_reachable : (heapSystem readmeLayout).Reachable pageTestState := by
  -- The requests are far smaller than the pool.
  have hpool : poolPages readmeLayout = 521967 := by decide
  have hmalloc : ∀ {s : HeapState} (size : Word), (heapSystem readmeLayout).Reachable s →
      (pageNum size).toNat ≤ 521967 →
      (heapSystem readmeLayout).Reachable (afterMalloc readmeLayout s size) := by
    intro s size hs hsize
    refine hs.step (e := .malloc size) ⟨?_, rfl, rfl⟩
    rw [(heapInv_reachable hs).statics.numPages, hpool]
    exact hsize
  refine hmalloc 4#32 (hmalloc 512#32 (hmalloc 1024#32 ?_ (by decide)) (by decide)) (by decide)
  exact System.Reachable.of_init ⟨_, rfl⟩

/-- The main result at the state `page_test` reaches. -/
theorem pageTestState_encodes : TableEncodes readmeLayout pageTestState :=
  (heap_encodes_live_blocks readmeLayout pageTestState pageTestState_reachable).1

end MiniRiscvOs.Proofs
