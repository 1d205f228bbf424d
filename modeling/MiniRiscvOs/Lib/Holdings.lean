import Mathlib.Data.List.Flatten
import Mathlib.Data.List.Lattice
import Mathlib.Data.List.Nodup
import Mathlib.Data.List.Pairwise
import Mathlib.Data.List.Perm.Basic

/-!
# `MiniRiscvOs.Lib.Holdings`: owners that share nothing

Each owner holds a list of resources, and no resource is held twice: not
by two owners, and not twice by one. `Holdings` carries that fact, so an
owner comes in with a proof that it takes nothing of the others.

* `Holdings.add` and `Holdings.remove` let an owner in and out.
* `Holdings.held_add` and `Holdings.held_remove` say which resources are
  held afterwards.
* `Holdings.disjoint` and `Holdings.eq_of_mem` read the sharing off.
-/

set_option autoImplicit false

namespace MiniRiscvOs.Lib

/-- Owners whose resources are all different. -/
structure Holdings {κ ρ : Type} (res : κ → List ρ) where
  owners : List κ
  nodup : (owners.flatMap res).Nodup

namespace Holdings

variable {κ ρ : Type} {res : κ → List ρ}

/-- Some owner holds the resource. -/
def Held (H : Holdings res) (x : ρ) : Prop := ∃ k ∈ H.owners, x ∈ res k

/-- A resource is held exactly when it is among those of some owner. -/
theorem held_iff (H : Holdings res) (x : ρ) : H.Held x ↔ x ∈ H.owners.flatMap res :=
  List.mem_flatMap.symm

/-- No owners. -/
def empty (res : κ → List ρ) : Holdings res where
  owners := []
  nodup := List.nodup_nil

/-- One more owner, of resources that nobody holds. -/
def add (H : Holdings res) (k : κ) (hnodup : (res k).Nodup)
    (hnew : ∀ x ∈ res k, ¬ H.Held x) : Holdings res where
  owners := k :: H.owners
  nodup := by
    rw [List.flatMap_cons, List.nodup_append']
    refine ⟨hnodup, H.nodup, fun x hx hheld => ?_⟩
    exact hnew x hx ((H.held_iff x).mpr hheld)

/-- One owner less. -/
def remove [BEq κ] [LawfulBEq κ] (H : Holdings res) (k : κ) : Holdings res where
  owners := H.owners.erase k
  nodup := H.nodup.sublist (List.Sublist.flatMap List.erase_sublist res)

/-- Adding puts the new owner first. -/
@[simp] theorem owners_add (H : Holdings res) {k : κ} {hnodup : (res k).Nodup}
    {hnew : ∀ x ∈ res k, ¬ H.Held x} : (H.add k hnodup hnew).owners = k :: H.owners := rfl

/-- Removing drops one occurrence of the owner. -/
@[simp] theorem owners_remove [BEq κ] [LawfulBEq κ] (H : Holdings res) (k : κ) :
    (H.remove k).owners = H.owners.erase k := rfl

/-- Nothing is held at first. -/
theorem not_held_empty (x : ρ) : ¬ (empty res).Held x := by
  rintro ⟨k, hk, -⟩
  simp [empty] at hk

/-- After an addition a resource is held by the new owner or as before. -/
theorem held_add (H : Holdings res) {k : κ} {hnodup : (res k).Nodup}
    {hnew : ∀ x ∈ res k, ¬ H.Held x} (x : ρ) :
    (H.add k hnodup hnew).Held x ↔ x ∈ res k ∨ H.Held x := by
  simp [Held]

/-- The resources of one owner are all different. -/
theorem nodup_of_mem (H : Holdings res) {k : κ} (hk : k ∈ H.owners) : (res k).Nodup :=
  (List.nodup_flatMap.mp H.nodup).1 k hk

/-- Two different places in the list of owners share nothing. -/
theorem disjoint (H : Holdings res) :
    H.owners.Pairwise fun k l => List.Disjoint (res k) (res l) :=
  (List.nodup_flatMap.mp H.nodup).2

/-- Two owners of one resource are the same owner. -/
theorem eq_of_mem (H : Holdings res) {k l : κ} (hk : k ∈ H.owners) (hl : l ∈ H.owners)
    {x : ρ} (hxk : x ∈ res k) (hxl : x ∈ res l) : k = l := by
  have hsymm : Std.Symm fun k l => List.Disjoint (res k) (res l) :=
    ⟨fun _ _ h => List.Disjoint.symm h⟩
  by_contra hne
  exact H.disjoint.forall hk hl hne hxk hxl

/-- Removing an owner gives back its resources and no other. -/
theorem held_remove [BEq κ] [LawfulBEq κ] (H : Holdings res) {k : κ} (hk : k ∈ H.owners)
    (x : ρ) : (H.remove k).Held x ↔ H.Held x ∧ x ∉ res k := by
  have hperm := (List.perm_cons_erase hk).flatMap_right res
  rw [List.flatMap_cons] at hperm
  have hnodup := hperm.nodup_iff.mp H.nodup
  have hdisj := (List.nodup_append'.mp hnodup).2.2
  rw [held_iff, held_iff, hperm.mem_iff, List.mem_append]
  show x ∈ (H.owners.erase k).flatMap res ↔ _
  constructor
  · intro hx
    exact ⟨Or.inr hx, fun hxk => hdisj hxk hx⟩
  · rintro ⟨hxk | hx, hnot⟩
    · exact absurd hxk hnot
    · exact hx

end Holdings

end MiniRiscvOs.Lib
