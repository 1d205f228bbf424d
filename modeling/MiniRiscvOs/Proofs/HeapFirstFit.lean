import MiniRiscvOs.Proofs.HeapInvariant

/-!
# `MiniRiscvOs.Proofs.HeapFirstFit`: the allocator is first fit

`firstFit` is an allocator without a table: all it has are the live blocks. `malloc`
gets the first pages that no block claims, and `free` forgets a block. The heap does
the same, call by call and block by block (`heap_refines_firstFit`), and the other
way round: each list of calls that first fit takes is one that the heap takes. So
nothing but the calls decides what they get, neither what was in RAM before
`page_init` nor what an earlier block has left in the table.

The last page of the pool is in no block: the loop of `malloc` does not try the last
start (`Room.inside`).
-/

set_option autoImplicit false

namespace MiniRiscvOs.Proofs

open MiniRiscvOs.Lib
open MiniRiscvOs.Kernel

/-! ### The abstract allocator -/

/-- Page `i` and the next have room for a block of `n` pages. -/
structure Room (L : HeapLayout) (live : List Block) (n i : Nat) : Prop where
  inside : i + n < poolPages L
  apart : ∀ b ∈ live, Span.Disjoint ⟨i, n⟩ (blockSpan L b)

/-- One call. A `malloc` gets the first room there is, or `NULL`. -/
def firstFitStep (L : HeapLayout) (live : List Block) : HeapCall → List Block → Prop
  | .malloc size, live' =>
      (pageNum size).toNat ≤ poolPages L ∧
        ((∃ i, Room L live (pageNum size).toNat i ∧
            (∀ l < i, ¬ Room L live (pageNum size).toNat l) ∧
            live' = (pageAddr L i, size) :: live) ∨
          ((∀ i, ¬ Room L live (pageNum size).toNat i) ∧ live' = live))
  | .free p, live' =>
      (p = 0#32 ∧ live' = live) ∨ ∃ b ∈ live, b.1 = p ∧ live' = live.erase b

/-- The allocator that has the live blocks and nothing else. -/
def firstFit (L : HeapLayout) : System (List Block) HeapCall where
  init live := live = []
  step := firstFitStep L

/-! ### One call -/

section Steps

variable {L : HeapLayout} {s t : HeapState} {e : HeapCall} {live : List Block}

/-- The table shows the room. -/
theorem room_iff (hinv : HeapInv L s) {n i : Nat} :
    Room L s.live n i ↔ i + n < poolPages L ∧ FreeRun s.heap.mem (pageDesc L i) n := by
  obtain ⟨S, hown, henc⟩ := hinv.encoded
  have hpage : i + n < poolPages L → ∀ k < n,
      (isFree s.heap.mem (pageDesc L i + BitVec.ofNat 32 k) = true ↔
        ∀ b ∈ s.live, i + k ∉ blockSpan L b) := by
    intro hin k hk
    rw [pageDesc_add, isFree_iff_marks henc (by omega), S.marks_eq_free_iff, hown]
  constructor
  · rintro ⟨hin, hapart⟩
    refine ⟨hin, fun k hk => (hpage hin k hk).mpr fun b hb => ?_⟩
    exact hapart b hb _ (Span.mem_mk.mpr ⟨by omega, by omega⟩)
  · rintro ⟨hin, hrun⟩
    refine ⟨hin, fun b hb j hj => ?_⟩
    obtain ⟨hle, hlt⟩ := Span.mem_mk.mp hj
    have hfree := (hpage hin (j - i) (by omega)).mp (hrun _ (by omega)) b hb
    rwa [Nat.add_sub_cancel' hle] at hfree

/-- The heap does what first fit does. -/
theorem firstFitStep_of_heapStep (hinv : HeapInv L s) (hstep : HeapStep L s e t) :
    firstFitStep L s.live e t.live := by
  cases e with
  | free p => exact hstep.2
  | malloc size =>
      obtain ⟨hsize, -, hlive⟩ := hstep
      rw [hinv.statics.numPages] at hsize
      refine ⟨hsize, ?_⟩
      rcases malloc_cases hinv.statics hsize with ⟨heq, hnone⟩ | ⟨i, hi, hrun, hfirst, heq⟩
      · rw [heq, if_pos rfl] at hlive
        refine Or.inr ⟨fun i hroom => ?_, hlive⟩
        obtain ⟨hin, hfree⟩ := (room_iff hinv).mp hroom
        exact hnone i hin hfree
      · rw [heq, if_neg (pageAddr_ne_zero L (by omega))] at hlive
        refine Or.inl ⟨i, (room_iff hinv).mpr ⟨hi, hrun⟩, fun l hl hroom => ?_, hlive⟩
        exact hfirst l hl ((room_iff hinv).mp hroom).2

/-- The pointer of a live block is that of a page. -/
theorem live_first_lt (hinv : HeapInv L s) {b : Block} (hb : b ∈ s.live) :
    (blockSpan L b).first < poolPages L := by
  obtain ⟨S, hown, -⟩ := hinv.encoded
  have hin := S.inside b (hown ▸ hb)
  have hpos : 0 < (blockSpan L b).len := pageNum_pos b.2
  omega

/-- Two live blocks with one pointer are one block: both claim its page. -/
theorem live_eq_of_pointer (hinv : HeapInv L s) {b c : Block} (hb : b ∈ s.live) (hc : c ∈ s.live)
    (heq : b.1 = c.1) : b = c := by
  obtain ⟨S, hown, -⟩ := hinv.encoded
  have hspans := S.disjoint
  rw [hown] at hspans
  by_contra hne
  have hsymm : Std.Symm fun a b => (blockSpan L a).Disjoint (blockSpan L b) :=
    ⟨fun _ _ h => h.symm⟩
  have hapart : (blockSpan L b).Disjoint (blockSpan L c) := hspans.forall hb hc hne
  have hfirst : (blockSpan L c).first = (blockSpan L b).first := by
    unfold blockSpan
    rw [heq]
  have hposb : 0 < (blockSpan L b).len := pageNum_pos b.2
  have hposc : 0 < (blockSpan L c).len := pageNum_pos c.2
  exact hapart _ (Span.mem_def.mpr ⟨Nat.le_refl _, by omega⟩)
    (Span.mem_def.mpr ⟨Nat.le_of_eq hfirst, by omega⟩)

/-- The live blocks and the call decide what first fit does. -/
theorem firstFitStep_det (hinv : HeapInv L s) {live' : List Block}
    (h : firstFitStep L s.live e live) (h' : firstFitStep L s.live e live') : live = live' := by
  cases e with
  | malloc size =>
      obtain ⟨-, ⟨i, hroom, hfirst, rfl⟩ | ⟨hnone, rfl⟩⟩ := h
      · obtain ⟨-, ⟨k, hroom', hfirst', rfl⟩ | ⟨hnone, -⟩⟩ := h'
        · -- Two first rooms are one room.
          rcases Nat.lt_trichotomy i k with hlt | rfl | hgt
          · exact absurd hroom (hfirst' i hlt)
          · rfl
          · exact absurd hroom' (hfirst k hgt)
        · exact absurd hroom (hnone i)
      · obtain ⟨-, ⟨k, hroom', -, -⟩ | ⟨-, rfl⟩⟩ := h'
        · exact absurd hroom' (hnone k)
        · rfl
  | free p =>
      -- No live block starts at the null address, so the two cases of `free`
      -- exclude each other.
      have hnull : ∀ b ∈ s.live, b.1 ≠ 0#32 := by
        intro b hb
        rw [hinv.aligned b hb]
        exact pageAddr_ne_zero L (live_first_lt hinv hb)
      rcases h with ⟨rfl, rfl⟩ | ⟨b, hb, rfl, rfl⟩
      · rcases h' with ⟨-, rfl⟩ | ⟨c, hc, heq, -⟩
        · rfl
        · exact absurd heq (hnull c hc)
      · rcases h' with ⟨heq, -⟩ | ⟨c, hc, heq, rfl⟩
        · exact absurd heq (hnull b hb)
        · rw [live_eq_of_pointer hinv hb hc heq.symm]

/-- The heap takes each call that first fit takes. -/
theorem heapStep_of_firstFitStep (hinv : HeapInv L s) (hstep : firstFitStep L s.live e live) :
    ∃ t, HeapStep L s e t ∧ t.live = live := by
  have hexists : ∃ t, HeapStep L s e t := by
    cases e with
    | malloc size =>
        refine ⟨afterMalloc L s size, ?_, rfl, rfl⟩
        rw [hinv.statics.numPages]
        exact hstep.1
    | free p =>
        obtain ⟨h', hfree⟩ := Option.ne_none_iff_exists'.mp (free_ne_none L s.heap p)
        exact ⟨⟨h', live⟩, hfree, hstep⟩
  obtain ⟨t, ht⟩ := hexists
  exact ⟨t, ht, firstFitStep_det hinv (firstFitStep_of_heapStep hinv ht) hstep⟩

/-- One operation keeps the invariant. -/
theorem HeapInv.step (hinv : HeapInv L s) (hstep : HeapStep L s e t) : HeapInv L t := by
  cases e with
  | malloc size => exact heapInv_malloc hinv hstep
  | free p => exact heapInv_free hinv hstep

end Steps

/-! ### Whole runs -/

section Runs

variable (L : HeapLayout)

/-- The heap, seen as its live blocks, is simulated by first fit. -/
def heapByFirstFit : Simulation (heapSystem L) (firstFit L) fun e => [e] where
  rel s live := HeapInv L s ∧ s.live = live
  init := by
    rintro s ⟨m, rfl⟩
    exact ⟨[], rfl, heapInv_init L m, rfl⟩
  step := by
    rintro s e t _ ⟨hinv, rfl⟩ hstep
    exact ⟨t.live, .single (firstFitStep_of_heapStep hinv hstep), hinv.step hstep, rfl⟩

/-- And the other way round. -/
def firstFitByHeap : Simulation (firstFit L) (heapSystem L) fun e => [e] where
  rel live s := HeapInv L s ∧ s.live = live
  init := by
    rintro _ rfl
    exact ⟨_, ⟨fun _ => 0#8, rfl⟩, heapInv_init L _, rfl⟩
  step := by
    rintro _ e live s ⟨hinv, rfl⟩ hstep
    obtain ⟨t, ht, hlive⟩ := heapStep_of_firstFitStep hinv hstep
    exact ⟨t, .single ht, hinv.step ht, hlive⟩

/-- The same calls leave the same blocks, whatever was in RAM. Induction on the calls. -/
theorem live_unique {s₀ s t₀ t : HeapState} {es : List HeapCall} (hs₀ : HeapInv L s₀)
    (ht₀ : HeapInv L t₀) (hlive : s₀.live = t₀.live) (hs : (heapSystem L).Run s₀ es s)
    (ht : (heapSystem L).Run t₀ es t) : s.live = t.live := by
  have hinv : ∀ {s₀ s : HeapState} {es : List HeapCall}, HeapInv L s₀ →
      (heapSystem L).Run s₀ es s → HeapInv L s :=
    fun h₀ hrun => hrun.preserves (fun _ _ _ h hstep => h.step hstep) h₀
  induction hs generalizing t with
  | nil =>
      rw [ht.eq_of_nil]
      exact hlive
  | @snoc u v es e hrun hstep ih =>
      obtain ⟨w, x, hw, hlast, hend⟩ := ht.split_step
      obtain rfl := hend.eq_of_nil
      have hsame : u.live = w.live := ih hw
      have hfirst := firstFitStep_of_heapStep (hinv hs₀ hrun) hstep
      have hfirst' := firstFitStep_of_heapStep (hinv ht₀ hw) hlast
      rw [hsame] at hfirst
      exact firstFitStep_det (hinv ht₀ hw) hfirst hfirst'

/-- For every memory that `page_init` finds and every list of calls: the blocks that
they leave live in the heap are those that they leave live with first fit, pointers
included. What was in RAM makes no difference. -/
theorem heap_refines_firstFit (m : Mem) (es : List HeapCall) :
    (∀ live, (∃ s, (heapSystem L).Run ⟨pageInit L m, []⟩ es s ∧ s.live = live) ↔
      (firstFit L).Run [] es live) ∧
    ∀ m' s t, (heapSystem L).Run ⟨pageInit L m, []⟩ es s →
      (heapSystem L).Run ⟨pageInit L m', []⟩ es t → s.live = t.live := by
  have hinit : ∀ m, HeapInv L ⟨pageInit L m, []⟩ := heapInv_init L
  refine ⟨fun live => ⟨?_, fun hfirst => ?_⟩, fun m' s t hs ht =>
    live_unique L (hinit m) (hinit m') rfl hs ht⟩
  · rintro ⟨s, hrun, rfl⟩
    obtain ⟨_, hfirst, -, rfl⟩ := (heapByFirstFit L).run ⟨hinit m, rfl⟩ hrun
    simpa using hfirst
  · obtain ⟨s, hrun, -, hlive⟩ := (firstFitByHeap L).run ⟨hinit m, rfl⟩ hfirst
    exact ⟨s, by simpa using hrun, hlive⟩

end Runs

/-- The three calls of `page_test`. -/
def pageTestCalls : List HeapCall := [.malloc 1024#32, .malloc 512#32, .malloc 4#32]

/-- They get what first fit gives them. -/
theorem pageTestState_firstFit :
    (firstFit readmeLayout).Run [] pageTestCalls pageTestState.live := by
  have hmalloc : ∀ {s : HeapState} (size : Word), HeapInv readmeLayout s →
      (pageNum size).toNat ≤ 521967 →
      HeapStep readmeLayout s (.malloc size) (afterMalloc readmeLayout s size) := by
    intro s size hinv hsize
    refine ⟨?_, rfl, rfl⟩
    rw [hinv.statics.numPages]
    exact hsize
  have h₀ := heapInv_init readmeLayout fun _ => 0xff#8
  have hfirst := hmalloc 1024#32 h₀ (by decide)
  have hsecond := hmalloc 512#32 (h₀.step hfirst) (by decide)
  have hthird := hmalloc 4#32 ((h₀.step hfirst).step hsecond) (by decide)
  have hrun : (heapSystem readmeLayout).Run ⟨pageInit readmeLayout fun _ => 0xff#8, []⟩
      pageTestCalls pageTestState := .snoc (.snoc (.single hfirst) hsecond) hthird
  exact ((heap_refines_firstFit readmeLayout (fun _ => 0xff#8) pageTestCalls).1 _).mp
    ⟨pageTestState, hrun, rfl⟩

end MiniRiscvOs.Proofs
