import Mathlib.Data.List.Chain
import Mathlib.Order.Nat

/-!
Lists of intervals that tile a range.

The elements of a list carry half-open intervals `lo s ≤ i < hi s`. `Tiles`
says that they are non-empty and stand end to end from `a` to `b`; then each
index of the range lies in exactly one of them (`Tiles.findIdx_eq_iff`), and the
number of the interval an index lies in does not go down as the index goes up
(`Tiles.findIdx_mono`). A table filled interval by interval holds these numbers
(`Tiles.fillTable_eq`).
-/

namespace StablecoinSystem

variable {α : Type} {lo hi : α → ℕ}

/-- The intervals of the list stand end to end from `a` to `b`, none empty. -/
inductive Tiles (lo hi : α → ℕ) : ℕ → List α → ℕ → Prop
  | nil (a : ℕ) : Tiles lo hi a [] a
  | cons {a b : ℕ} {s : α} {l : List α} (hlo : lo s = a) (hne : a < hi s)
      (hrest : Tiles lo hi (hi s) l b) : Tiles lo hi a (s :: l) b

/-- The index lies in the interval. -/
def covers (lo hi : α → ℕ) (i : ℕ) (s : α) : Bool := decide (lo s ≤ i ∧ i < hi s)

@[simp] lemma covers_iff {i : ℕ} {s : α} : covers lo hi i s = true ↔ lo s ≤ i ∧ i < hi s :=
  decide_eq_true_iff

namespace Tiles

variable {a b i i' : ℕ} {l : List α}

lemma le (h : Tiles lo hi a l b) : a ≤ b := by
  induction h with
  | nil a => exact le_rfl
  | cons hlo hne hrest ih => omega

/-- Every interval lies in the range. -/
lemma bounds (h : Tiles lo hi a l b) {s : α} (hs : s ∈ l) :
    a ≤ lo s ∧ lo s < hi s ∧ hi s ≤ b := by
  induction h with
  | nil a => simp at hs
  | cons hlo hne hrest ih =>
      have hle := hrest.le
      rcases List.mem_cons.mp hs with rfl | hs
      · omega
      · have hin := ih hs
        omega

/-- The intervals of a tiled list stand end to end. -/
lemma adjacent (h : Tiles lo hi a l b) : l.IsChain (fun s t => hi s = lo t) := by
  induction h with
  | nil a => exact .nil
  | cons hlo hne hrest ih =>
      cases hrest with
      | nil => exact .singleton _
      | cons hlo' hne' hrest' => exact List.isChain_cons_cons.mpr ⟨hlo'.symm, ih⟩

/-- The interval of a position contains an index exactly if it is the first one
that does. -/
theorem findIdx_eq_iff (h : Tiles lo hi a l b) (hai : a ≤ i) {j : ℕ} (hj : j < l.length) :
    l.findIdx (covers lo hi i) = j ↔ lo l[j] ≤ i ∧ i < hi l[j] := by
  induction h generalizing j with
  | nil a => simp at hj
  | @cons a b s l hlo hne hrest ih =>
      by_cases hs : i < hi s
      · have hcov : covers lo hi i s = true := by simp [hlo, hai, hs]
        rw [List.findIdx_cons, hcov, cond_true]
        cases j with
        | zero => simp [hlo, hai, hs]
        | succ j =>
            -- a later interval starts after the first one ends
            have hj' : j < l.length := by simpa using hj
            have hlate := (hrest.bounds (List.getElem_mem hj')).1
            simp only [List.getElem_cons_succ]
            omega
      · have hcov : covers lo hi i s = false := by simp [covers, hs]
        rw [List.findIdx_cons, hcov, cond_false]
        cases j with
        | zero => simp [hs]
        | succ j =>
            have hj' : j < l.length := by simpa using hj
            simpa using ih (Nat.not_lt.mp hs) hj'

/-- An index of the range lies in one of the intervals. -/
lemma findIdx_lt_length (h : Tiles lo hi a l b) (hai : a ≤ i) (hb : i < b) :
    l.findIdx (covers lo hi i) < l.length := by
  rw [List.findIdx_lt_length]
  induction h with
  | nil a => omega
  | @cons a b s l hlo hne hrest ih =>
      by_cases hs : i < hi s
      · exact ⟨s, List.mem_cons_self, by simp [hlo, hai, hs]⟩
      · obtain ⟨t, ht, hcov⟩ := ih (Nat.not_lt.mp hs) hb
        exact ⟨t, List.mem_cons_of_mem s ht, hcov⟩

/-- Later indices lie in later intervals, or in the same one. -/
theorem findIdx_mono (h : Tiles lo hi a l b) (hai : a ≤ i) (hle : i ≤ i') :
    l.findIdx (covers lo hi i) ≤ l.findIdx (covers lo hi i') := by
  induction h with
  | nil a => exact le_rfl
  | @cons a b s l hlo hne hrest ih =>
      by_cases hs : i < hi s
      · simp [List.findIdx_cons, covers, hlo, hai, hs]
      · have hs' : ¬ i' < hi s := by omega
        simpa [List.findIdx_cons, covers, hs, hs'] using ih (Nat.not_lt.mp hs)

end Tiles

/-! ### Tables filled interval by interval -/

/-- `table[i] = v` for every `i` from `start` up to `stop`. -/
def fillRange (v : ℕ) (start stop : ℕ) (table : List ℕ) : List ℕ :=
  (List.range' start (stop - start)).foldl (fun table i => table.set i v) table

lemma getElem?_foldl_set (v : ℕ) (is : List ℕ) (table : List ℕ) (i : ℕ) :
    (is.foldl (fun table i => table.set i v) table)[i]? =
      if i ∈ is then table[i]?.map (fun _ => v) else table[i]? := by
  induction is generalizing table with
  | nil => simp
  | cons k is ih =>
      rw [List.foldl_cons, ih]
      by_cases hk : k = i
      · subst hk
        rw [List.getElem?_set_self', if_pos List.mem_cons_self]
        cases table[k]? <;> simp
      · simp [List.getElem?_set_ne hk, Ne.symm hk]

lemma getElem?_fillRange (v start stop : ℕ) (table : List ℕ) (i : ℕ) :
    (fillRange v start stop table)[i]? =
      if start ≤ i ∧ i < stop then table[i]?.map (fun _ => v) else table[i]? := by
  rw [fillRange, getElem?_foldl_set]
  refine if_congr ?_ rfl rfl
  rw [List.mem_range'_1]
  omega

/-- A table of `n` entries, `l.length` at first, in which the indices of the
`k`-th interval below `n` are then set to `k`. -/
def fillTable (lo hi : α → ℕ) (l : List α) (n : ℕ) : List ℕ :=
  l.zipIdx.foldl (fun table (s, k) => fillRange k (lo s) (min (hi s) n) table)
    (List.replicate n l.length)

/-- An entry is set by the one interval its index lies in. -/
lemma Tiles.getElem?_foldl_fillRange {a b : ℕ} {l : List α} (h : Tiles lo hi a l b) (n k : ℕ)
    (table : List ℕ) (i : ℕ) (htable : table.length = n) :
    ((l.zipIdx k).foldl (fun table (s, k) => fillRange k (lo s) (min (hi s) n) table) table)[i]? =
      if a ≤ i ∧ i < b then table[i]?.map (fun _ => k + l.findIdx (covers lo hi i))
      else table[i]? := by
  induction h generalizing k table with
  | nil a =>
      rw [if_neg (by omega)]
      rfl
  | @cons a b s l hlo hne hrest ih =>
      have hle := hrest.le
      have hlen : (fillRange k (lo s) (min (hi s) n) table).length = n := by
        rw [fillRange]
        exact (List.foldlRecOn _ _ (motive := fun t : List ℕ => t.length = n) htable
          fun t ht _ _ => by rw [List.length_set, ht])
      rw [List.zipIdx_cons, List.foldl_cons, ih (k + 1) _ hlen, getElem?_fillRange, hlo]
      by_cases hin : i < n
      · by_cases hs : i < hi s
        · by_cases ha : a ≤ i
          · rw [if_neg (by omega), if_pos (by omega), if_pos (by omega)]
            simp [List.findIdx_cons, covers, hlo, ha, hs]
          · rw [if_neg (by omega), if_neg (by omega), if_neg (by omega)]
        · by_cases hb : i < b
          · rw [if_pos (by omega), if_neg (by omega), if_pos (by omega)]
            simp only [List.findIdx_cons, covers, hs, and_false, decide_false, cond_false]
            congr 1
            funext
            omega
          · rw [if_neg (by omega), if_neg (by omega), if_neg (by omega)]
      · -- beyond the table there is no entry to set
        have hnone : table[i]? = none := by
          rw [List.getElem?_eq_none_iff]
          omega
        simp [hnone]

/-- **The filled table.** Entry `i` is the number of the interval `i` lies in,
and the number of intervals if there is none. -/
theorem Tiles.fillTable_eq {b : ℕ} {l : List α} (h : Tiles lo hi 0 l b) (n : ℕ) :
    fillTable lo hi l n = (List.range n).map fun i => l.findIdx (covers lo hi i) := by
  refine List.ext_getElem? fun i => ?_
  rw [fillTable, h.getElem?_foldl_fillRange n 0 _ i List.length_replicate]
  by_cases hin : i < n
  · rw [List.getElem?_replicate, if_pos hin, List.getElem?_map, List.getElem?_range hin]
    split
    · simp
    · rename_i hout
      -- no interval reaches beyond the range
      have hnone : l.findIdx (covers lo hi i) = l.length := by
        rw [List.findIdx_eq_length]
        intro s hs
        have hbounds := h.bounds hs
        simp only [covers, decide_eq_false_iff_not]
        omega
      simp [hnone]
  · simp [hin]

end StablecoinSystem
