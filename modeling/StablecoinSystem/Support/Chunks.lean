import Mathlib.Algebra.Order.BigOperators.Group.List
import Mathlib.Algebra.Order.Group.Nat
import Mathlib.Data.List.Basic
import Mathlib.Data.List.Flatten
import Mathlib.Data.List.Nodup

/-!
A list dealt out in chunks of one size.

Chunk `s` is what stands from position `s * size` on, `size` elements at most.
The first `k` chunks are a prefix of the list (`flatMap_chunk`), the whole list if
the size is the length over `k`, rounded up (`flatMap_chunk_eq_self`). If each
chunk is cut at `m` elements, the list survives exactly if it has at most `k * m`
elements (`flatMap_chunk_take_eq_iff`).
-/

namespace StablecoinSystem

variable {α : Type*}

/-- Chunk `s` of the list. -/
def chunk (size : ℕ) (l : List α) (s : ℕ) : List α := (l.drop (s * size)).take size

lemma chunk_sublist (size : ℕ) (l : List α) (s : ℕ) : (chunk size l s).Sublist l :=
  (List.take_sublist _ _).trans (List.drop_sublist _ _)

/-- The chunk as a slice from `start` to the smaller of `start + size` and the
end of the list. -/
lemma slice_eq_chunk (size : ℕ) (l : List α) (s : ℕ) :
    (if s * size < l.length then
      (l.take (min (s * size + size) l.length)).drop (s * size) else []) = chunk size l s := by
  split
  · rw [chunk, List.drop_take, List.take_eq_take_iff, List.length_drop]
    omega
  · rename_i hge
    rw [chunk, List.drop_eq_nil_of_le (Nat.not_lt.mp hge), List.take_nil]

/-- The first `k` chunks make up the first `k * size` elements. -/
lemma flatMap_chunk (size : ℕ) (l : List α) (k : ℕ) :
    (List.range k).flatMap (chunk size l) = l.take (k * size) := by
  induction k with
  | zero => simp
  | succ k ih =>
      rw [List.range_succ, List.flatMap_append, ih, List.flatMap_singleton, chunk, Nat.succ_mul,
        List.take_add]

/-- `k` chunks of the length over `k`, rounded up, are the whole list. -/
lemma flatMap_chunk_eq_self {k : ℕ} (hk : 1 ≤ k) (l : List α) :
    (List.range k).flatMap (chunk ((l.length + k - 1) / k) l) = l := by
  rw [flatMap_chunk, List.take_of_length_le]
  have hdiv := Nat.div_add_mod (l.length + k - 1) k
  have hmod := Nat.mod_lt (l.length + k - 1) hk
  omega

/-- Different chunks of a list without repetitions have nothing in common. -/
lemma pairwise_disjoint_chunk (size : ℕ) {l : List α} (hl : l.Nodup) (k : ℕ) :
    (List.range k).Pairwise fun s s' => List.Disjoint (chunk size l s) (chunk size l s') := by
  have hnodup := hl.sublist (List.take_sublist (k * size) l)
  rw [← flatMap_chunk, List.nodup_flatMap] at hnodup
  exact hnodup.2

/-- **Chunks cut at `m` elements** are the whole list exactly if it has at most
`k * m` elements. -/
theorem flatMap_chunk_take_eq_iff {k : ℕ} (hk : 1 ≤ k) (m : ℕ) (l : List α) :
    (List.range k).flatMap (fun s => (chunk ((l.length + k - 1) / k) l s).take m) = l ↔
      l.length ≤ k * m := by
  constructor
  · intro h
    -- each of the `k` pieces has at most `m` elements
    rw [← congrArg List.length h, List.length_flatMap]
    refine (List.sum_le_card_nsmul _ m ?_).trans ?_
    · exact List.forall_mem_map.mpr fun s _ => List.length_take_le _ _
    · simp
  · intro hlen
    have hsize : (l.length + k - 1) / k ≤ m := by
      rw [← Nat.lt_succ_iff, Nat.div_lt_iff_lt_mul hk, Nat.succ_mul, Nat.mul_comm]
      omega
    have hwhole (s : ℕ) : (chunk ((l.length + k - 1) / k) l s).take m =
        chunk ((l.length + k - 1) / k) l s :=
      List.take_of_length_le (Nat.le_trans (List.length_take_le _ _) hsize)
    simp only [hwhole]
    exact flatMap_chunk_eq_self hk l

end StablecoinSystem
