import MiniRiscvOs.Proofs.VirtioDesc

/-!
# `MiniRiscvOs.Proofs.FreeChain`: `free_chain` on any table

`free_chain` has no counter, and nothing is assumed of the table here: the
links may go in circles or out of it. `chainAt t i` are the indices that
the links of the table name from `i` on, before anything is freed. The
walk follows them, because it panics before it comes to a descriptor that
it has zeroed.

`freeChainLoop_walk` is by induction on the fuel. The indices walked so far
are different descriptors that were in use, so there are at most `num` of
them, and the fuel lasts.
-/

set_option autoImplicit false

namespace MiniRiscvOs.Proofs

open MiniRiscvOs.Lib
open MiniRiscvOs.Kernel

variable {α : Type}

/-- The links from `i` on. -/
def chainAt (t : DescTable α) (i : Nat) : Nat → Nat
  | 0 => i
  | k + 1 => (t.desc (chainAt t i k)).next.toNat

/-- The first `k` indices of the chain. -/
def walked (t : DescTable α) (i k : Nat) : List Nat := (List.range k).map (chainAt t i)

/-- The descriptor `i` is linked to another. -/
def HasNext (t : DescTable α) (i : Nat) : Prop := (t.desc i).flags &&& vringDescFNext ≠ 0#16

instance (t : DescTable α) (i : Nat) : Decidable (HasNext t i) :=
  inferInstanceAs (Decidable (_ ≠ _))

/-- The chain goes on at least to its index number `k`: none before it is a
descriptor of the ring without a link. -/
def Visited (num : Nat) (t : DescTable α) (i k : Nat) : Prop :=
  ∀ j < k, chainAt t i j < num → HasNext t (chainAt t i j)

/-- Index number `k` of the chain cannot be freed: it is out of range, was
free before the call, or repeats an earlier one. -/
def Stuck (num : Nat) (t : DescTable α) (i k : Nat) : Prop :=
  num ≤ chainAt t i k ∨ t.free (chainAt t i k) = true ∨ chainAt t i k ∈ walked t i k

/-- The first `k` indices of the chain are different descriptors of the
ring that are in use. -/
structure Walkable (num : Nat) (t : DescTable α) (i k : Nat) : Prop where
  nodup : (walked t i k).Nodup
  lt : ∀ j ∈ walked t i k, j < num
  taken : ∀ j ∈ walked t i k, t.free j = false

/-- One index further. -/
theorem walked_succ (t : DescTable α) (i k : Nat) :
    walked t i (k + 1) = walked t i k ++ [chainAt t i k] := by
  rw [walked, List.range_succ, List.map_append]
  rfl

/-- The indices on the way are walked. -/
theorem mem_walked {t : DescTable α} {i j k : Nat} (h : j < k) : chainAt t i j ∈ walked t i k :=
  List.mem_map_of_mem (List.mem_range.mpr h)

/-- There are no more descriptors than the ring has. -/
theorem Walkable.le {num : Nat} {t : DescTable α} {i k : Nat} (h : Walkable num t i k) :
    k ≤ num := by
  have hsub : walked t i k ⊆ List.range num := fun j hj => List.mem_range.mpr (h.lt j hj)
  have hle := (List.subperm_of_subset h.nodup hsub).length_le
  rwa [walked, List.length_map, List.length_range, List.length_range] at hle

/-- One index further, if it can be freed. -/
theorem Walkable.succ {num : Nat} {t : DescTable α} {i k : Nat} (h : Walkable num t i k)
    (hfree : ¬ Stuck num t i k) : Walkable num t i (k + 1) := by
  have hlt : chainAt t i k < num := Nat.lt_of_not_le fun hle => hfree (Or.inl hle)
  have htaken : t.free (chainAt t i k) = false := by
    cases hval : t.free (chainAt t i k) with
    | false => rfl
    | true => exact absurd (Or.inr (Or.inl hval)) hfree
  have hnot : chainAt t i k ∉ walked t i k := fun hmem => hfree (Or.inr (Or.inr hmem))
  constructor
  · rw [walked_succ, List.nodup_append']
    exact ⟨h.nodup, List.nodup_singleton _, by simpa using hnot⟩
  · intro j hj
    rw [walked_succ, List.mem_append, List.mem_singleton] at hj
    rcases hj with hj | rfl
    · exact h.lt j hj
    · exact hlt
  · intro j hj
    rw [walked_succ, List.mem_append, List.mem_singleton] at hj
    rcases hj with hj | rfl
    · exact h.taken j hj
    · exact htaken

/-- An index of a walkable part of the chain is not stuck. -/
theorem Walkable.not_stuck {num : Nat} {t : DescTable α} {i j k : Nat} (h : Walkable num t i k)
    (hj : j < k) : ¬ Stuck num t i j := by
  have hmem : chainAt t i j ∈ walked t i k := mem_walked hj
  rintro (hout | hfree | hrep)
  · exact absurd (h.lt _ hmem) (Nat.not_lt.mpr hout)
  · rw [h.taken _ hmem] at hfree
    cases hfree
  · obtain ⟨j', hj', heq⟩ := List.mem_map.mp hrep
    have hlt := List.mem_range.mp hj'
    have hinj := List.inj_on_of_nodup_map h.nodup (List.mem_range.mpr (hlt.trans hj))
      (List.mem_range.mpr hj) heq
    omega

section Walk

variable [Zero α]

/-- Freeing the next index after the others. -/
theorem walked_release (t : DescTable α) (i k : Nat) :
    release [chainAt t i k] (release (walked t i k) t) = release (walked t i (k + 1)) t := by
  rw [walked_succ]
  apply DescTable.ext
  · funext j
    simp only [release, List.mem_singleton, List.mem_append]
    by_cases hj : j = chainAt t i k
    · simp [hj]
    · simp [hj]
  · funext j
    simp [release, Bool.or_assoc]

/-- The message of the panic at `i`. -/
def stuckMsg (num i : Nat) : String := if num ≤ i then "free_desc 1" else "free_desc 2"

/-- `free_chain` from `i` has freed the first `k` indices of the chain and
has ended: after one without a link, or with a panic at the next one. -/
inductive Ended (num : Nat) (t : DescTable α) (i : Nat) : Nat → Outcome (DescTable α) Unit → Prop
  | returned (k : Nat) (hvis : Visited num t i k) (hlast : ¬ HasNext t (chainAt t i k))
      (hwalk : Walkable num t i (k + 1)) :
      Ended num t i (k + 1) (.ret () (release (walked t i (k + 1)) t))
  | panicked (k : Nat) (hvis : Visited num t i k) (hstuck : Stuck num t i k)
      (hwalk : Walkable num t i k) :
      Ended num t i k (.panic (stuckMsg num (chainAt t i k)) (release (walked t i k) t))

/-- However it ends, the indices it freed could be freed. -/
theorem Ended.walkable {num : Nat} {t : DescTable α} {i k : Nat}
    {o : Outcome (DescTable α) Unit} (h : Ended num t i k o) : Walkable num t i k := by
  cases h with
  | returned _ _ _ hwalk => exact hwalk
  | panicked _ _ _ hwalk => exact hwalk

/-- The rest of the walk of `free_chain`, from index number `k` of the
chain on. -/
theorem freeChainLoop_walk (num : Nat) (t : DescTable α) (i : Nat) (fuel : Nat) :
    ∀ k, k + fuel = num + 1 → Walkable num t i k → Visited num t i k →
      ∃ k', Ended num t i k'
        (freeChainLoop num fuel (release (walked t i k) t) (chainAt t i k)) := by
  induction fuel with
  | zero =>
      intro k hk hwalk _
      have hle := hwalk.le
      omega
  | succ fuel ih =>
      intro k hk hwalk hvis
      rw [freeChainLoop]
      by_cases hstuck : Stuck num t i k
      · refine ⟨k, ?_⟩
        have hpanic : freeDesc num (release (walked t i k) t) (chainAt t i k)
            = .panic (stuckMsg num (chainAt t i k)) (release (walked t i k) t) := by
          unfold freeDesc stuckMsg
          by_cases hout : num ≤ chainAt t i k
          · rw [if_pos hout, if_pos hout]
          · have hfree : (release (walked t i k) t).free (chainAt t i k) = true := by
              rcases hstuck with h | h | h
              · exact absurd h hout
              · simp [release, h]
              · simp [release, h]
            rw [if_neg hout, if_neg hout, if_pos hfree]
        rw [hpanic]
        exact .panicked k hvis hstuck hwalk
      · have hwalk' := hwalk.succ hstuck
        have hmem : chainAt t i k ∈ walked t i (k + 1) := mem_walked (Nat.lt_succ_self k)
        have hnot : chainAt t i k ∉ walked t i k := fun h => hstuck (Or.inr (Or.inr h))
        -- The descriptor has not been zeroed, so its link is that of the table before.
        have hsame : (release (walked t i k) t).desc (chainAt t i k) = t.desc (chainAt t i k) :=
          if_neg hnot
        have hfree : (release (walked t i k) t).free (chainAt t i k) = false := by
          simp [release, hwalk'.taken _ hmem, hnot]
        rw [freeDesc_of_taken (hwalk'.lt _ hmem) hfree, walked_release, hsame]
        by_cases hnext : HasNext t (chainAt t i k)
        · have hvis' : Visited num t i (k + 1) := by
            intro j hj hlt
            rcases Nat.lt_succ_iff_lt_or_eq.mp hj with hj | rfl
            · exact hvis j hj hlt
            · exact hnext
          obtain ⟨k', hend⟩ := ih (k + 1) (by omega) hwalk' hvis'
          have hlink : (t.desc (chainAt t i k)).flags &&& vringDescFNext ≠ 0#16 := hnext
          refine ⟨k', ?_⟩
          show Ended num t i k' (if _ then _ else _)
          rw [if_pos hlink]
          exact hend
        · have hlink : ¬ (t.desc (chainAt t i k)).flags &&& vringDescFNext ≠ 0#16 := hnext
          refine ⟨k + 1, ?_⟩
          show Ended num t i (k + 1) (if _ then _ else _)
          rw [if_neg hlink]
          exact .returned k hvis hnext hwalk'

/-- On every table `free_chain` frees at most `num` descriptors, each once
and each on the chain, and ends: it returns after the first one without a
link, or it panics at the first index that is out of range or already free.
It panics exactly when the chain, up to its first descriptor of the ring
without a link, has an index that is out of range, was free, or repeats an
earlier one. -/
theorem freeChain_ends (num : Nat) (t : DescTable α) (i : Nat) :
    (∃ k, k ≤ num ∧ Walkable num t i k ∧ Ended num t i k (freeChain num t i)) ∧
      ((∃ msg u, freeChain num t i = .panic msg u) ↔
        ∃ k, Visited num t i k ∧ Stuck num t i k) := by
  have hstart : Walkable num t i 0 := ⟨List.nodup_nil, by simp [walked], by simp [walked]⟩
  have hnone : release (walked t i 0) t = t := by
    have hnil : walked t i 0 = [] := rfl
    rw [hnil]
    apply DescTable.ext
    · funext j
      simp [release]
    · funext j
      simp [release]
  obtain ⟨k, hend⟩ := freeChainLoop_walk num t i (num + 1) 0 (by omega)
    hstart (fun j hj => absurd hj (Nat.not_lt_zero j))
  rw [hnone] at hend
  change Ended num t i k (freeChain num t i) at hend
  refine ⟨⟨k, hend.walkable.le, hend.walkable, hend⟩, ?_⟩
  generalize freeChain num t i = o at hend
  cases hend with
  | returned k hvis hlast hwalk =>
      constructor
      · rintro ⟨msg, u, h⟩
        cases h
      · rintro ⟨j, hj, hstuck⟩
        -- The chain ends at number `k`, so `j` is not after it.
        have hle : j < k + 1 := by
          by_contra hgt
          exact hlast (hj k (by omega) (hwalk.lt _ (mem_walked (Nat.lt_succ_self k))))
        exact absurd hstuck (hwalk.not_stuck hle)
  | panicked k hvis hstuck hwalk =>
      exact ⟨fun _ => ⟨k, hvis, hstuck⟩, fun _ => ⟨_, _, rfl⟩⟩

end Walk

end MiniRiscvOs.Proofs
