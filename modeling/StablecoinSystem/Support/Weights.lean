import Mathlib.Algebra.BigOperators.Group.Finset.Basic
import Mathlib.Algebra.Order.BigOperators.Group.Finset
import Mathlib.Algebra.Order.Ring.Canonical
import StablecoinSystem.Support.Quorum

/-!
Members with weights.

* `sum_map_le_of_subset`: distinct entries of a list weigh no more than the list;
* `exists_mem_inter_of_weight`: sets that weigh more together than all members
  and a third set share a member outside the third;
* `QuorumSystem.weighted`: more than two thirds of the weight, less than one third
  of which is faulty.
-/

namespace StablecoinSystem

open Finset

variable {α : Type} [DecidableEq α] (weight : α → ℕ) (faulty : Finset α)
  {members A B : Finset α}

omit [DecidableEq α] in
/-- Distinct entries of a list weigh no more than the list. -/
lemma sum_map_le_of_subset {l l' : List α} (hnodup : l.Nodup) (hsub : l ⊆ l') (weight : α → ℕ) :
    (l.map weight).sum ≤ (l'.map weight).sum := by
  obtain ⟨xs, hperm, hsublist⟩ := List.subperm_of_subset hnodup hsub
  rw [← (hperm.map weight).sum_nat]
  exact (hsublist.map weight).sum_le_sum fun _ _ => Nat.zero_le _

/-- Two sets of members that weigh more than all members and the faulty ones
share a member with a weight that is not faulty. -/
lemma exists_mem_inter_of_weight (hA : A ⊆ members) (hB : B ⊆ members)
    (h : ∑ x ∈ members, weight x + ∑ x ∈ faulty, weight x <
      ∑ x ∈ A, weight x + ∑ x ∈ B, weight x) :
    ∃ x ∈ A, x ∈ B ∧ weight x ≠ 0 ∧ x ∉ faulty := by
  by_contra hnone
  push Not at hnone
  have hinter : ∑ x ∈ A ∩ B, weight x ≤ ∑ x ∈ faulty, weight x := by
    rw [← sum_filter_ne_zero]
    refine sum_le_sum_of_subset fun x hx => ?_
    obtain ⟨hmem, hweight⟩ := mem_filter.mp hx
    exact hnone x (mem_of_mem_inter_left hmem) (mem_of_mem_inter_right hmem) hweight
  have hunion : ∑ x ∈ A ∪ B, weight x ≤ ∑ x ∈ members, weight x :=
    sum_le_sum_of_subset (union_subset hA hB)
  have hsum : ∑ x ∈ A ∪ B, weight x + ∑ x ∈ A ∩ B, weight x =
      ∑ x ∈ A, weight x + ∑ x ∈ B, weight x := sum_union_inter
  omega

/-- More than two thirds of the weight are a quorum if less than one third of it
is faulty. -/
def QuorumSystem.weighted (members : Finset α)
    (hfaulty : 3 * ∑ x ∈ faulty, weight x < ∑ x ∈ members, weight x) : QuorumSystem α where
  quorum A := A ⊆ members ∧ 2 * ∑ x ∈ members, weight x < 3 * ∑ x ∈ A, weight x
  honest x := weight x ≠ 0 ∧ x ∉ faulty
  shared := fun _ _ hA hB => exists_mem_inter_of_weight weight faulty hA.1 hB.1 (by omega)

end StablecoinSystem
