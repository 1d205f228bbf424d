import Mathlib.Data.BitVec
import Mathlib.Data.List.Perm.Subperm
import MiniRiscvOs.Kernel.VirtioDesc
import MiniRiscvOs.Lib.Holdings
import MiniRiscvOs.Lib.System

/-!
# `MiniRiscvOs.Proofs.VirtioDesc`: descriptors are neither leaked nor shared

Any number of chains is outstanding, and they are allocated and freed in
any order. Which chain a descriptor belongs to is written nowhere but in
the links, and `free_desc` zeroes those while `free_chain` follows them.

* `alloc3DescLoop_spec`: `alloc3_desc` takes three free descriptors, or it
  fails for want of them and undoes what it did. The undo is exact because
  a free descriptor is all zero (`freeDescs_take`).
* `freeChainLoop_spec`: `free_chain` gives back the descriptors of a linked
  chain, one link after the other.
* `PoolInv` ties the outstanding chains, as `Holdings`, to the links, to
  `free[]` and to the zeroed entries, and `descPool_safe` reads the result
  off it for every run.
-/

set_option autoImplicit false

namespace MiniRiscvOs.Proofs

open MiniRiscvOs.Lib
open MiniRiscvOs.Kernel

variable {α : Type}

/-! ### One descriptor at a time -/

instance [Zero α] : Zero (VirtqDesc α) := ⟨⟨0, 0#32, 0#16, 0#16⟩⟩

/-- The table with the descriptors of `idx` marked non-free. -/
def take (idx : List Nat) (t : DescTable α) : DescTable α :=
  { t with free := fun i => t.free i && decide (i ∉ idx) }

/-- The table with the descriptors of `idx` zeroed and marked free. -/
def release [Zero α] (idx : List Nat) (t : DescTable α) : DescTable α where
  desc i := if i ∈ idx then 0 else t.desc i
  free i := t.free i || decide (i ∈ idx)

/-- Taking nothing changes nothing. -/
@[simp] theorem take_nil (t : DescTable α) : take [] t = t := by
  simp [take]

/-- `free[i] = 0` takes one descriptor. -/
theorem setFree_false (t : DescTable α) (i : Nat) : t.setFree i false = take [i] t := by
  apply DescTable.ext
  · rfl
  · funext j
    by_cases hj : j = i <;> simp [DescTable.setFree, take, hj]

/-- The five assignments of `free_desc` release one descriptor. -/
theorem exec_freeDescStmts [Zero α] (t : DescTable α) (i : Nat) :
    t.exec (freeDescStmts i) = release [i] t := by
  apply DescTable.ext
  · funext j
    by_cases hj : j = i
    · subst hj
      simp [DescTable.exec, freeDescStmts, DescTable.setAddr, DescTable.setLen,
        DescTable.setFlags, DescTable.setNext, DescTable.setFree, release]
      rfl
    · simp [DescTable.exec, freeDescStmts, DescTable.setAddr, DescTable.setLen,
        DescTable.setFlags, DescTable.setNext, DescTable.setFree, release, hj]
  · funext j
    by_cases hj : j = i
    · subst hj
      simp [DescTable.exec, freeDescStmts, DescTable.setAddr, DescTable.setLen,
        DescTable.setFlags, DescTable.setNext, DescTable.setFree, release]
    · simp [DescTable.exec, freeDescStmts, DescTable.setAddr, DescTable.setLen,
        DescTable.setFlags, DescTable.setNext, DescTable.setFree, release, hj]

/-- `free_desc` on a descriptor that is in use. -/
theorem freeDesc_of_taken [Zero α] {num : Nat} {t : DescTable α} {i : Nat} (hi : i < num)
    (hfree : t.free i = false) : freeDesc num t i = .ret () (release [i] t) := by
  rw [freeDesc, if_neg (Nat.not_le.mpr hi), hfree, if_neg (by simp), exec_freeDescStmts]

/-- The loop of `alloc_desc` finds the first free index, or there is none. -/
theorem allocDescLoop_cases (t : DescTable α) (n i : Nat) :
    (allocDescLoop t n i = (none, t) ∧ ∀ j, i ≤ j → j < i + n → t.free j = false) ∨
    ∃ j, i ≤ j ∧ j < i + n ∧ t.free j = true ∧ (∀ k, i ≤ k → k < j → t.free k = false) ∧
      allocDescLoop t n i = (some j, take [j] t) := by
  induction n generalizing i with
  | zero => exact Or.inl ⟨rfl, fun j hle hlt => absurd hlt (by omega)⟩
  | succ n ih =>
      rw [allocDescLoop]
      cases hfree : t.free i with
      | true =>
          -- `free[i]` is set: the loop stops here, and nothing comes before `i`.
          refine Or.inr ⟨i, Nat.le_refl i, by omega, hfree, fun k hle hlt => absurd hlt (by omega),
            ?_⟩
          rw [if_pos rfl, setFree_false]
      | false =>
          -- `free[i]` is clear: what the rest of the loop finds is first from `i` too.
          rw [if_neg (by simp)]
          rcases ih (i + 1) with ⟨heq, hnone⟩ | ⟨j, hle, hlt, hj, hfirst, heq⟩
          · refine Or.inl ⟨heq, fun j hle hlt => ?_⟩
            rcases Nat.eq_or_lt_of_le hle with rfl | hlt'
            · exact hfree
            · exact hnone j hlt' (by omega)
          · refine Or.inr ⟨j, by omega, by omega, hj, fun k hle' hlt' => ?_, heq⟩
            rcases Nat.eq_or_lt_of_le hle' with rfl | hlt''
            · exact hfree
            · exact hfirst k hlt'' hlt'

/-- Two takes are one. -/
theorem take_take (idx js : List Nat) (t : DescTable α) :
    take js (take idx t) = take (idx ++ js) t := by
  apply DescTable.ext
  · rfl
  · funext i
    simp [take, Bool.and_assoc]

/-! ### `alloc3_desc` -/

/-- The free descriptors of the ring. -/
def freeCount (num : Nat) (t : DescTable α) : Nat := (List.range num).countP t.free

/-- Descriptors that can be taken: different ones, of the ring, and free. -/
structure Takeable (num : Nat) (t : DescTable α) (idx : List Nat) : Prop where
  nodup : idx.Nodup
  lt : ∀ i ∈ idx, i < num
  free : ∀ i ∈ idx, t.free i = true

/-- One more descriptor that is still free. -/
theorem Takeable.snoc {num : Nat} {t : DescTable α} {idx : List Nat} (h : Takeable num t idx)
    {j : Nat} (hlt : j < num) (hfree : (take idx t).free j = true) :
    Takeable num t (idx ++ [j]) := by
  have hj : t.free j = true ∧ j ∉ idx := by simpa [take] using hfree
  refine ⟨?_, ?_, ?_⟩
  · rw [List.nodup_append']
    exact ⟨h.nodup, List.nodup_singleton j, by simpa using hj.2⟩
  · intro i hi
    rcases List.mem_append.mp hi with hi | hi
    · exact h.lt i hi
    · rw [List.mem_singleton.mp hi]
      exact hlt
  · intro i hi
    rcases List.mem_append.mp hi with hi | hi
    · exact h.free i hi
    · rw [List.mem_singleton.mp hi]
      exact hj.1

/-- No more descriptors can be taken than are free. -/
theorem Takeable.length_le {num : Nat} {t : DescTable α} {idx : List Nat}
    (h : Takeable num t idx) : idx.length ≤ freeCount num t := by
  have hsub : idx ⊆ (List.range num).filter t.free := by
    intro i hi
    rw [List.mem_filter, List.mem_range]
    exact ⟨h.lt i hi, h.free i hi⟩
  have hle := (List.subperm_of_subset h.nodup hsub).length_le
  rwa [← List.countP_eq_length_filter] at hle

/-- If all free descriptors are among `idx`, there are no more of them. -/
theorem freeCount_le {num : Nat} {t : DescTable α} {idx : List Nat}
    (h : ∀ i < num, t.free i = true → i ∈ idx) : freeCount num t ≤ idx.length := by
  have hsub : (List.range num).filter t.free ⊆ idx := by
    intro i hi
    rw [List.mem_filter, List.mem_range] at hi
    exact h i hi.1 hi.2
  have hnodup : ((List.range num).filter t.free).Nodup := List.nodup_range.filter _
  have hle := (List.subperm_of_subset hnodup hsub).length_le
  rwa [← List.countP_eq_length_filter] at hle

section Calls

variable [Zero α]

/-- Each free descriptor of the ring is all zero. -/
def FreeZeroed (num : Nat) (t : DescTable α) : Prop :=
  ∀ i < num, t.free i = true → t.desc i = 0

/-- The rollback of `alloc3_desc` is an exact undo. Induction on the
descriptors left to give back. -/
theorem freeDescs_take {num : Nat} {t : DescTable α} (hzero : FreeZeroed num t) :
    ∀ {idx : List Nat}, Takeable num t idx → freeDescs num (take idx t) idx = .ret () t := by
  intro idx
  induction idx with
  | nil =>
      intro _
      rw [take_nil, freeDescs]
  | cons j js ih =>
      intro h
      have hj := h.lt j List.mem_cons_self
      have hfreej := h.free j List.mem_cons_self
      obtain ⟨hnot, hnodup⟩ := List.nodup_cons.mp h.nodup
      have hjs : Takeable num t js :=
        ⟨hnodup, fun i hi => h.lt i (List.mem_cons_of_mem j hi),
          fun i hi => h.free i (List.mem_cons_of_mem j hi)⟩
      -- Zeroing `j` writes what was there, since a free descriptor is zero.
      have hback : release [j] (take (j :: js) t) = take js t := by
        apply DescTable.ext
        · funext i
          by_cases hi : i = j
          · subst hi
            simp [release, take, hzero i hj hfreej]
          · simp [release, take, hi]
        · funext i
          by_cases hi : i = j
          · subst hi
            simp [release, take, hfreej, hnot]
          · simp [release, take, hi]
      rw [freeDescs, freeDesc_of_taken hj (by simp [take]), hback]
      exact ih hjs

/-- The loop of `alloc3_desc`, with the descriptors `idx` taken from the
table `t` so far. It takes `n` more, or it fails because the ring does not
have so many and leaves `t`. -/
theorem alloc3DescLoop_spec {num : Nat} {t : DescTable α} (hzero : FreeZeroed num t) (n : Nat) :
    ∀ {idx : List Nat}, Takeable num t idx →
      (alloc3DescLoop num n idx (take idx t) = .ret none t ∧
        freeCount num t < idx.length + n) ∨
      ∃ js, alloc3DescLoop num n idx (take idx t) = .ret (some js) (take js t) ∧
        js.length = idx.length + n ∧ Takeable num t js := by
  induction n with
  | zero =>
      intro idx h
      exact Or.inr ⟨idx, rfl, rfl, h⟩
  | succ n ih =>
      intro idx h
      -- Does `alloc_desc` find one more?
      rcases allocDescLoop_cases (take idx t) num 0 with ⟨heq, hnone⟩ | ⟨j, -, hlt, hj, -, heq⟩
      · refine Or.inl ⟨?_, ?_⟩
        · rw [alloc3DescLoop, allocDesc, heq]
          show (freeDescs num (take idx t) idx).bind _ = _
          rw [freeDescs_take hzero h]
          rfl
        -- It finds none, so `idx` has all that are free in `t`.
        · have hall : ∀ i < num, t.free i = true → i ∈ idx := by
            intro i hi hfree
            have hfalse := hnone i (Nat.zero_le i) (by omega)
            simpa [take, hfree] using hfalse
          have := freeCount_le hall
          omega
      · have hnext := h.snoc (by omega) hj
        have hstep : alloc3DescLoop num (n + 1) idx (take idx t)
            = alloc3DescLoop num n (idx ++ [j]) (take (idx ++ [j]) t) := by
          rw [alloc3DescLoop, allocDesc, heq, take_take]
        rw [hstep]
        rcases ih hnext with ⟨hfail, hcount⟩ | ⟨js, hret, hlen, hjs⟩
        · refine Or.inl ⟨hfail, ?_⟩
          rw [List.length_append, List.length_singleton] at hcount
          omega
        · refine Or.inr ⟨js, hret, ?_, hjs⟩
          rw [List.length_append, List.length_singleton] at hlen
          omega

/-- `alloc3_desc` on a table whose free descriptors are zeroed. -/
theorem alloc3Desc_spec {num : Nat} {t : DescTable α} (hzero : FreeZeroed num t) :
    (alloc3Desc num t = .ret none t ∧ freeCount num t < 3) ∨
    ∃ a b c, alloc3Desc num t = .ret (some [a, b, c]) (take [a, b, c] t) ∧
      3 ≤ freeCount num t ∧ Takeable num t [a, b, c] := by
  have hnil : Takeable num t [] := ⟨List.nodup_nil, by simp, by simp⟩
  have hspec := alloc3DescLoop_spec hzero 3 hnil
  rw [take_nil] at hspec
  rcases hspec with ⟨heq, hcount⟩ | ⟨js, heq, hlen, hjs⟩
  · exact Or.inl ⟨heq, hcount⟩
  · obtain ⟨a, b, c, rfl⟩ := List.length_eq_three.mp hlen
    exact Or.inr ⟨a, b, c, heq, hjs.length_le, hjs⟩

/-! ### `free_chain` -/

/-- The links of the table run through the list: each entry but the last
has the `NEXT` flag and names the one after it. -/
def Linked (t : DescTable α) : List Nat → Prop
  | [] => False
  | [i] => (t.desc i).flags &&& vringDescFNext = 0#16
  | i :: j :: rest =>
      (t.desc i).flags &&& vringDescFNext ≠ 0#16 ∧ (t.desc i).next.toNat = j ∧
        Linked t (j :: rest)

omit [Zero α] in
/-- Links are read in the descriptors of the list and nowhere else. -/
theorem Linked.congr {t u : DescTable α} :
    ∀ {idx : List Nat}, (∀ i ∈ idx, u.desc i = t.desc i) → Linked t idx → Linked u idx := by
  intro idx
  induction idx with
  | nil => exact fun _ h => h
  | cons i rest ih =>
      intro heq h
      have hi := heq i List.mem_cons_self
      cases rest with
      | nil =>
          rw [Linked] at h ⊢
          rwa [hi]
      | cons j rest =>
          rw [Linked] at h ⊢
          rw [hi]
          exact ⟨h.1, h.2.1, ih (fun k hk => heq k (List.mem_cons_of_mem i hk)) h.2.2⟩

/-- Releasing one descriptor and then others. -/
theorem release_release (i : Nat) (idx : List Nat) (t : DescTable α) :
    release idx (release [i] t) = release (i :: idx) t := by
  apply DescTable.ext
  · funext j
    by_cases hj : j = i
    · subst hj
      simp [release]
    · simp [release, hj]
  · funext j
    simp [release, Bool.or_assoc]

/-- The walk of `free_chain` over a linked chain of taken descriptors frees
that chain and returns. Induction on the chain; the rest of it is still
linked because its descriptors are others than the one just zeroed. -/
theorem freeChainLoop_spec {num : Nat} (idx : List Nat) :
    ∀ {t : DescTable α} {i fuel : Nat}, Linked t (i :: idx) → (i :: idx).Nodup →
      (∀ j ∈ i :: idx, j < num ∧ t.free j = false) → idx.length < fuel →
      freeChainLoop num fuel t i = .ret () (release (i :: idx) t) := by
  induction idx with
  | nil =>
      intro t i fuel hlink _ htaken hfuel
      obtain ⟨fuel, rfl⟩ := Nat.exists_eq_add_of_lt hfuel
      obtain ⟨hi, hfree⟩ := htaken i List.mem_cons_self
      -- The last descriptor has no `NEXT` flag, and the walk ends.
      have hlast : (t.desc i).flags &&& vringDescFNext = 0#16 := hlink
      rw [freeChainLoop, freeDesc_of_taken hi hfree]
      exact if_neg (not_not.mpr hlast)
  | cons j rest ih =>
      intro t i fuel hlink hnodup htaken hfuel
      obtain ⟨fuel, rfl⟩ : ∃ k, fuel = k + 1 := ⟨fuel - 1, by omega⟩
      obtain ⟨hi, hfree⟩ := htaken i List.mem_cons_self
      obtain ⟨hnext, hj, hrest⟩ := hlink
      obtain ⟨hnot, hnodup'⟩ := List.nodup_cons.mp hnodup
      have hother : ∀ k ∈ j :: rest, k ≠ i := by
        rintro k hk rfl
        exact hnot hk
      -- `free_desc` zeroes `i` only, and no later descriptor is `i`.
      have hlink' : Linked (release [i] t) (j :: rest) := by
        refine hrest.congr fun k hk => ?_
        simp [release, hother k hk]
      have htaken' : ∀ k ∈ j :: rest, k < num ∧ (release [i] t).free k = false := by
        intro k hk
        obtain ⟨hlt, hk'⟩ := htaken k (List.mem_cons_of_mem i hk)
        exact ⟨hlt, by simp [release, hk', hother k hk]⟩
      rw [freeChainLoop, freeDesc_of_taken hi hfree]
      show (if _ then freeChainLoop num fuel (release [i] t) _ else _) = _
      rw [if_pos hnext, hj, ih hlink' hnodup' htaken' (by simpa using hfuel), release_release]

end Calls

/-! ### Linking three descriptors -/

/-- What `virtio_disk_rw` writes into the three descriptors of a request,
apart from the links. -/
structure ChainReq (α : Type) where
  write : Bool
  headerAddr : α
  headerLen : Word
  dataAddr : α
  dataLen : Word
  statusAddr : α
  statusLen : Word

/-- The table after `virtio_disk_rw` has formatted the descriptors. -/
def link (req : ChainReq α) (idx : List Nat) (t : DescTable α) : DescTable α :=
  t.exec (linkHeader idx req.headerAddr req.headerLen
    ++ linkData idx req.write req.dataAddr req.dataLen
    ++ linkStatus idx req.statusAddr req.statusLen)

/-- Linking takes no descriptor. -/
theorem link_free (req : ChainReq α) (idx : List Nat) (t : DescTable α) :
    (link req idx t).free = t.free := rfl

/-- The entries of the table after linking three different descriptors. -/
theorem link_desc (req : ChainReq α) {a b c : Nat} (hnodup : [a, b, c].Nodup)
    (t : DescTable α) (i : Nat) :
    (link req [a, b, c] t).desc i =
      if i = a then ⟨req.headerAddr, req.headerLen, vringDescFNext, BitVec.ofNat 16 b⟩
      else if i = b then ⟨req.dataAddr, req.dataLen,
        (if req.write then 0#16 else vringDescFWrite) ||| vringDescFNext, BitVec.ofNat 16 c⟩
      else if i = c then ⟨req.statusAddr, req.statusLen, vringDescFWrite, 0#16⟩
      else t.desc i := by
  -- The three entries differ, so no assignment undoes one of another entry.
  have hne : a ≠ b ∧ a ≠ c ∧ b ≠ c := by simpa [and_assoc] using hnodup
  obtain ⟨hab, hac, hbc⟩ := hne
  by_cases hia : i = a
  · subst hia
    simp [link, DescTable.exec, linkHeader, linkData, linkStatus, DescTable.setAddr,
      DescTable.setLen, DescTable.setFlags, DescTable.orFlags, DescTable.setNext, hab, hac]
  · by_cases hib : i = b
    · subst hib
      simp [link, DescTable.exec, linkHeader, linkData, linkStatus, DescTable.setAddr,
        DescTable.setLen, DescTable.setFlags, DescTable.orFlags, DescTable.setNext, hia, hbc]
    · by_cases hic : i = c
      · subst hic
        simp [link, DescTable.exec, linkHeader, linkData, linkStatus, DescTable.setAddr,
          DescTable.setLen, DescTable.setFlags, DescTable.orFlags, DescTable.setNext, hia, hib]
      · simp [link, DescTable.exec, linkHeader, linkData, linkStatus, DescTable.setAddr,
          DescTable.setLen, DescTable.setFlags, DescTable.orFlags, DescTable.setNext, hia, hib,
          hic]

/-- The three descriptors are linked in their order. -/
theorem linked_link (req : ChainReq α) {a b c : Nat} (hnodup : [a, b, c].Nodup)
    (hb : b < 65536) (hc : c < 65536) (t : DescTable α) :
    Linked (link req [a, b, c] t) [a, b, c] := by
  -- The stores go to three different entries, so each keeps its own.
  have hne : a ≠ b ∧ a ≠ c ∧ b ≠ c := by simpa [and_assoc] using hnodup
  obtain ⟨hab, hac, hbc⟩ := hne
  have hda := link_desc req hnodup t a
  have hdb := link_desc req hnodup t b
  have hdc := link_desc req hnodup t c
  rw [if_pos rfl] at hda
  rw [if_neg hab.symm, if_pos rfl] at hdb
  rw [if_neg hac.symm, if_neg hbc.symm, if_pos rfl] at hdc
  refine ⟨?_, ?_, ?_, ?_, ?_⟩
  · rw [hda]
    show vringDescFNext &&& vringDescFNext ≠ 0#16
    decide
  · rw [hda]
    exact Nat.mod_eq_of_lt hb
  -- The data descriptor has `NEXT` set beside its direction bit.
  · rw [hdb]
    show ((if req.write then 0#16 else vringDescFWrite) ||| vringDescFNext)
      &&& vringDescFNext ≠ 0#16
    cases req.write <;> decide
  · rw [hdb]
    exact Nat.mod_eq_of_lt hc
  · show ((link req [a, b, c] t).desc c).flags &&& vringDescFNext = 0#16
    rw [hdc]
    show vringDescFWrite &&& vringDescFNext = 0#16
    decide

/-! ### The pool with its chains -/

/-- The table and, as a ghost, the outstanding chains. -/
structure PoolState (α : Type) where
  table : DescTable α
  chains : List (List Nat)

/-- A call on the pool. -/
inductive PoolCall (α : Type) where
  | alloc3 (req : ChainReq α)
  | freeChain (idx : List Nat)

variable [Zero α]

/-- One call. A successful `alloc3_desc` is followed by the formatting of
the request, and `free_chain` is called on the head of an outstanding
chain. -/
def PoolStep (num : Nat) (s : PoolState α) (call : PoolCall α) (s' : PoolState α) : Prop :=
  match call with
  | .alloc3 req => ∃ r t, alloc3Desc num s.table = .ret r t ∧
      s' = match r with
        | some idx => ⟨link req idx t, idx :: s.chains⟩
        | none => ⟨t, s.chains⟩
  | .freeChain idx => idx ∈ s.chains ∧
      ∃ t, freeChain num s.table idx[0]! = .ret () t ∧ s' = ⟨t, s.chains.erase idx⟩

/-- The pool of `num` descriptors, from what `virtio_disk_init` leaves: all
entries zero and free. What lies past the tables is arbitrary. -/
def poolSystem (num : Nat) : System (PoolState α) (PoolCall α) where
  init s := (∀ i < num, s.table.desc i = 0 ∧ s.table.free i = true) ∧ s.chains = []
  step := PoolStep num

/-- The invariant of the pool. -/
structure PoolInv (num : Nat) (s : PoolState α) : Prop where
  owned : ∃ H : Holdings (fun idx : List Nat => idx), H.owners = s.chains ∧
    ∀ i < num, (s.table.free i = true ↔ ¬ H.Held i)
  length : ∀ idx ∈ s.chains, idx.length = 3
  lt : ∀ idx ∈ s.chains, ∀ i ∈ idx, i < num
  linked : ∀ idx ∈ s.chains, Linked s.table idx
  zeroed : FreeZeroed num s.table

/-- The invariant holds of the free table. -/
theorem poolInv_init {num : Nat} {s : PoolState α} (h : (poolSystem num).init s) :
    PoolInv num s := by
  obtain ⟨hinit, hchains⟩ := h
  refine ⟨⟨Holdings.empty _, hchains.symm, fun i hi => ?_⟩, ?_, ?_, ?_,
    fun i hi _ => (hinit i hi).1⟩
  · simp only [(hinit i hi).2, true_iff]
    exact Holdings.not_held_empty i
  · simp [hchains]
  · simp [hchains]
  · simp [hchains]

/-- A descriptor of an outstanding chain is not free. -/
theorem PoolInv.taken {num : Nat} {s : PoolState α} (hinv : PoolInv num s) {idx : List Nat}
    (hidx : idx ∈ s.chains) : ∀ i ∈ idx, i < num ∧ s.table.free i = false := by
  intro i hi
  obtain ⟨H, hown, hfree⟩ := hinv.owned
  have hlt := hinv.lt idx hidx i hi
  refine ⟨hlt, Bool.eq_false_iff.mpr fun h => ?_⟩
  exact (hfree i hlt).mp h ⟨idx, by rwa [hown], hi⟩

/-- A chain on free descriptors comes in. The other chains have none of
them, so their links stay. -/
theorem poolInv_link {num : Nat} (hnum : num ≤ 32768) {s : PoolState α} (hinv : PoolInv num s)
    (req : ChainReq α) {a b c : Nat} (htake : Takeable num s.table [a, b, c]) :
    PoolInv num ⟨link req [a, b, c] (take [a, b, c] s.table), [a, b, c] :: s.chains⟩ := by
  obtain ⟨H, hown, hfree⟩ := hinv.owned
  have hnew : ∀ i ∈ [a, b, c], ¬ H.Held i := fun i hi =>
    (hfree i (htake.lt i hi)).mp (htake.free i hi)
  have hother : ∀ i ∉ [a, b, c],
      (link req [a, b, c] (take [a, b, c] s.table)).desc i = s.table.desc i := by
    intro i hi
    simp only [List.mem_cons, List.not_mem_nil, or_false, not_or] at hi
    rw [link_desc req htake.nodup, if_neg hi.1, if_neg hi.2.1, if_neg hi.2.2]
    rfl
  refine ⟨⟨H.add [a, b, c] htake.nodup hnew, by rw [Holdings.owners_add, hown], ?_⟩,
    ?_, ?_, ?_, ?_⟩
  · intro i hi
    show (link req [a, b, c] (take [a, b, c] s.table)).free i = true ↔ _
    rw [link_free]
    show (s.table.free i && decide (i ∉ [a, b, c])) = true ↔ _
    rw [Holdings.held_add, Bool.and_eq_true, decide_eq_true_iff, hfree i hi]
    tauto
  · intro idx hidx
    rcases List.mem_cons.mp hidx with rfl | hidx
    · rfl
    · exact hinv.length idx hidx
  · intro idx hidx
    rcases List.mem_cons.mp hidx with rfl | hidx
    · exact htake.lt
    · exact hinv.lt idx hidx
  -- The new chain is linked by the stores, an old one keeps its links.
  · intro idx hidx
    rcases List.mem_cons.mp hidx with rfl | hidx
    · have hb := htake.lt b (by simp)
      have hc := htake.lt c (by simp)
      exact linked_link req htake.nodup (by omega) (by omega) _
    · refine (hinv.linked idx hidx).congr fun i hi => hother i fun hmem => ?_
      exact hnew i hmem ⟨idx, by rwa [hown], hi⟩
  · intro i hi hfreei
    -- A descriptor still free is none of the three, so it stays zero.
    have hfreei' : s.table.free i = true ∧ i ∉ [a, b, c] := by
      have : (s.table.free i && decide (i ∉ [a, b, c])) = true := hfreei
      rwa [Bool.and_eq_true, decide_eq_true_iff] at this
    show (link req [a, b, c] (take [a, b, c] s.table)).desc i = 0
    rw [hother i hfreei'.2]
    exact hinv.zeroed i hi hfreei'.1

/-- `free_chain` on an outstanding chain gives that chain back. -/
theorem freeChain_of_mem {num : Nat} {s : PoolState α} (hinv : PoolInv num s)
    {idx : List Nat} (hidx : idx ∈ s.chains) :
    freeChain num s.table idx[0]! = .ret () (release idx s.table) := by
  obtain ⟨H, hown, hfree⟩ := hinv.owned
  have hnodup : idx.Nodup := H.nodup_of_mem (by rwa [hown])
  have htaken := hinv.taken hidx
  obtain ⟨a, b, c, rfl⟩ := List.length_eq_three.mp (hinv.length idx hidx)
  -- Three different descriptors of the ring, so the fuel lasts.
  have hsub : [a, b, c] ⊆ List.range num := fun i hi => List.mem_range.mpr (htaken i hi).1
  have hle := (List.subperm_of_subset hnodup hsub).length_le
  rw [List.length_range] at hle
  exact freeChainLoop_spec [b, c] (hinv.linked _ hidx) hnodup htaken (by simp at hle ⊢; omega)

/-- A chain goes out. The other chains have none of its descriptors. -/
theorem poolInv_release {num : Nat} {s : PoolState α} (hinv : PoolInv num s) {idx : List Nat}
    (hidx : idx ∈ s.chains) : PoolInv num ⟨release idx s.table, s.chains.erase idx⟩ := by
  obtain ⟨H, hown, hfree⟩ := hinv.owned
  have hidx' : idx ∈ H.owners := by rwa [hown]
  refine ⟨⟨H.remove idx, by rw [Holdings.owners_remove, hown], ?_⟩,
    fun js hjs => hinv.length js (List.mem_of_mem_erase hjs),
    fun js hjs => hinv.lt js (List.mem_of_mem_erase hjs), ?_, ?_⟩
  · intro i hi
    show (s.table.free i || decide (i ∈ idx)) = true ↔ _
    rw [H.held_remove hidx', Bool.or_eq_true, decide_eq_true_iff, hfree i hi]
    tauto
  · intro js hjs
    refine (hinv.linked js (List.mem_of_mem_erase hjs)).congr fun i hi => ?_
    -- Another chain holds `i`, so it was not zeroed.
    have hheld : (H.remove idx).Held i := ⟨js, by rwa [Holdings.owners_remove, hown], hi⟩
    exact if_neg ((H.held_remove hidx' i).mp hheld).2
  · intro i hi hfreei
    show (if i ∈ idx then 0 else s.table.desc i) = 0
    split
    · rfl
    · rename_i hnot
      have : (s.table.free i || decide (i ∈ idx)) = true := hfreei
      rw [Bool.or_eq_true, decide_eq_true_iff] at this
      exact hinv.zeroed i hi (this.resolve_right hnot)

/-- The invariant holds in every run. -/
theorem poolInv_reachable {num : Nat} (hnum : num ≤ 32768) {s : PoolState α}
    (hs : (poolSystem num).Reachable s) : PoolInv num s := by
  refine System.invariant (fun s => poolInv_init) ?_ hs
  intro s call s' hinv hstep
  cases call with
  | alloc3 req =>
      obtain ⟨r, t, halloc, rfl⟩ := hstep
      rcases alloc3Desc_spec hinv.zeroed with ⟨heq, -⟩ | ⟨a, b, c, heq, -, htake⟩
      -- A failed call leaves the state as it was.
      · obtain ⟨rfl, rfl⟩ : none = r ∧ s.table = t := by simpa [heq] using halloc
        exact hinv
      · obtain ⟨rfl, rfl⟩ : some [a, b, c] = r ∧ take [a, b, c] s.table = t := by
          simpa [heq] using halloc
        exact poolInv_link hnum hinv req htake
  | freeChain idx =>
      obtain ⟨hidx, t, hfree, rfl⟩ := hstep
      rw [freeChain_of_mem hinv hidx] at hfree
      obtain rfl : release idx s.table = t := by simpa using hfree
      exact poolInv_release hinv hidx

/-- The descriptor pool in every run of `alloc3_desc` and `free_chain`.

* The outstanding chains are disjoint, and each has three descriptors of
  the ring.
* `free[i]` is set exactly for the descriptors of no chain, and those are
  all zero.
* `alloc3_desc` fails exactly when fewer than three are free, and then it
  leaves the table as it was. Otherwise it takes three different free ones.
* `free_chain` on an outstanding chain returns, with the three descriptors
  of that chain freed and zeroed and no other changed. -/
theorem descPool_safe (num : Nat) (hnum : num ≤ 32768) (s : PoolState α)
    (hs : (poolSystem num).Reachable s) :
    s.chains.Pairwise List.Disjoint ∧
    (∀ idx ∈ s.chains, idx.length = 3 ∧ idx.Nodup ∧ ∀ i ∈ idx, i < num) ∧
    (∀ i < num, (s.table.free i = true ↔ ∀ idx ∈ s.chains, i ∉ idx)) ∧
    (∀ i < num, s.table.free i = true → s.table.desc i = 0) ∧
    (∃ r t, alloc3Desc num s.table = .ret r t ∧
      (r = none ↔ freeCount num s.table < 3) ∧
      (r = none → t = s.table) ∧
      ∀ idx, r = some idx → idx.length = 3 ∧ idx.Nodup ∧
        (∀ i ∈ idx, i < num ∧ s.table.free i = true) ∧
        t.desc = s.table.desc ∧ ∀ i, t.free i = (s.table.free i && decide (i ∉ idx))) ∧
    (∀ idx ∈ s.chains, ∃ t, freeChain num s.table idx[0]! = .ret () t ∧
      (∀ i ∈ idx, t.free i = true ∧ t.desc i = 0) ∧
      ∀ i ∉ idx, t.free i = s.table.free i ∧ t.desc i = s.table.desc i) := by
  have hinv := poolInv_reachable hnum hs
  -- The chains own their descriptors, so they are disjoint.
  obtain ⟨H, hown, hfree⟩ := hinv.owned
  refine ⟨by rw [← hown]; exact H.disjoint, ?_, ?_, hinv.zeroed, ?_, ?_⟩
  · intro idx hidx
    exact ⟨hinv.length idx hidx, H.nodup_of_mem (by rwa [hown]), hinv.lt idx hidx⟩
  · intro i hi
    rw [hfree i hi, Holdings.Held, hown]
    simp
  · rcases alloc3Desc_spec hinv.zeroed with ⟨heq, hcount⟩ | ⟨a, b, c, heq, hcount, htake⟩
    · exact ⟨none, s.table, heq, by simpa using hcount, fun _ => rfl, by simp⟩
    · refine ⟨some [a, b, c], take [a, b, c] s.table, heq, by simpa using hcount, by simp, ?_⟩
      intro idx hidx
      obtain rfl := Option.some.inj hidx
      exact ⟨rfl, htake.nodup, fun i hi => ⟨htake.lt i hi, htake.free i hi⟩, rfl, fun _ => rfl⟩
  · intro idx hidx
    refine ⟨_, freeChain_of_mem hinv hidx, fun i hi => ?_, fun i hi => ?_⟩
    · simp [release, hi]
    · simp [release, hi]

/-- The pool `virtio_disk_init` leaves. -/
def initPool : PoolState (BitVec 64) := ⟨⟨fun _ => 0, fun _ => true⟩, []⟩

/-- A read request. -/
def readReq : ChainReq (BitVec 64) :=
  ⟨false, 0x80010000#64, 16#32, 0x80020000#64, 512#32, 0x80030000#64, 1#32⟩

/-- The pool of the driver after one request. -/
def oneChain : PoolState (BitVec 64) :=
  match alloc3Desc 8 initPool.table with
  | .ret (some idx) t => ⟨link readReq idx t, idx :: initPool.chains⟩
  | _ => initPool

/-- The state is one that the system reaches. -/
theorem oneChain_reachable : (poolSystem 8).Reachable oneChain := by
  have hinit : (poolSystem 8).init initPool := ⟨fun _ _ => ⟨rfl, rfl⟩, rfl⟩
  exact (System.Reachable.of_init hinit).step (e := .alloc3 readReq)
    ⟨some [0, 1, 2], _, rfl, rfl⟩

/-- The main result for that request: its descriptors, and only those, are
in use. -/
theorem oneChain_safe :
    (∀ i < 8, (oneChain.table.free i = true ↔ ∀ idx ∈ oneChain.chains, i ∉ idx)) ∧
    ∀ idx ∈ oneChain.chains, ∃ t, freeChain 8 oneChain.table idx[0]! = .ret () t ∧
      (∀ i ∈ idx, t.free i = true ∧ t.desc i = 0) ∧
      ∀ i ∉ idx, t.free i = oneChain.table.free i ∧ t.desc i = oneChain.table.desc i := by
  obtain ⟨-, -, hfree, -, -, hchain⟩ :=
    descPool_safe 8 (by decide) oneChain oneChain_reachable
  exact ⟨hfree, hchain⟩

end MiniRiscvOs.Proofs
