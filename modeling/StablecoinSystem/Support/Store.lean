import Mathlib.Data.List.Nodup
import Mathlib.Data.List.Basic
import Mathlib.Logic.Function.Basic

/-!
Key-value stores.

A store maps a key to the value last written to it, `none` if there is none.
`insert` writes one key and `applyWrites` a list of writes in order; the lemmas
say what a later `get` sees.

* `applyWrites_of_notMem`: a list of writes leaves every other key alone;
* `applyWrites_of_mem`: a duplicate-free list of writes sets each of its keys;
* `applyWrites_eq_or`: a key has the last value written to it, or the one it had;
* `applyWrites_append`: writing two lists one after the other;
* `applyWrites_perm`: the order of duplicate-free writes does not matter.
-/

namespace StablecoinSystem

/-- A store: the value last written to a key, `none` if it was never written. -/
def Store (K V : Type) : Type := K → Option V

namespace Store

variable {K V : Type}

/-- The store in which nothing has been written. -/
def empty : Store K V := fun _ => none

@[simp] lemma empty_apply (k : K) : (empty : Store K V) k = none := rfl

variable [DecidableEq K]

/-- Write one key. -/
def insert (st : Store K V) (k : K) (v : V) : Store K V :=
  Function.update st k (some v)

/-- Write a list of keys in order. -/
def applyWrites (st : Store K V) (ws : List (K × V)) : Store K V :=
  ws.foldl (fun acc w => acc.insert w.1 w.2) st

lemma insert_apply (st : Store K V) (k k' : K) (v : V) :
    st.insert k v k' = if k' = k then some v else st k' :=
  Function.update_apply st k (some v) k'

@[simp] lemma insert_self (st : Store K V) (k : K) (v : V) : st.insert k v k = some v := by
  simp [insert_apply]

@[simp] lemma insert_of_ne (st : Store K V) {k k' : K} (v : V) (h : k' ≠ k) :
    st.insert k v k' = st k' := by
  simp [insert_apply, h]

@[simp] lemma applyWrites_nil (st : Store K V) : st.applyWrites [] = st := rfl

@[simp] lemma applyWrites_cons (st : Store K V) (w : K × V) (ws : List (K × V)) :
    st.applyWrites (w :: ws) = (st.insert w.1 w.2).applyWrites ws := rfl

lemma applyWrites_append (st : Store K V) (ws ws' : List (K × V)) :
    st.applyWrites (ws ++ ws') = (st.applyWrites ws).applyWrites ws' := by
  simp [applyWrites, List.foldl_append]

/-- A list of writes leaves every key it does not mention alone. -/
lemma applyWrites_of_notMem {ws : List (K × V)} {k : K} (h : k ∉ ws.map Prod.fst)
    (st : Store K V) : st.applyWrites ws k = st k := by
  induction ws generalizing st with
  | nil => rfl
  | cons w ws ih =>
      simp only [List.map_cons, List.mem_cons, not_or] at h
      rw [applyWrites_cons, ih h.2, insert_of_ne st w.2 h.1]

/-- A duplicate-free list of writes sets each of its keys to its own value. -/
lemma applyWrites_of_mem {ws : List (K × V)} (hnd : (ws.map Prod.fst).Nodup) {k : K} {v : V}
    (h : (k, v) ∈ ws) (st : Store K V) : st.applyWrites ws k = some v := by
  induction ws generalizing st with
  | nil => simp at h
  | cons w ws ih =>
      rw [List.map_cons, List.nodup_cons] at hnd
      rcases List.mem_cons.mp h with rfl | h'
      · rw [applyWrites_cons, applyWrites_of_notMem hnd.1, insert_self]
      · exact ih hnd.2 h' _

/-- After a list of writes a key has the last value the list gives it, or the
one it had before. -/
lemma applyWrites_eq_or (st : Store K V) (ws : List (K × V)) (k : K) :
    st.applyWrites ws k = ((empty : Store K V).applyWrites ws k).or (st k) := by
  induction ws generalizing st with
  | nil => rfl
  | cons w ws ih =>
      have hinsert : st.insert w.1 w.2 k = ((empty : Store K V).insert w.1 w.2 k).or (st k) := by
        by_cases hk : k = w.1
        · rw [hk, insert_self, insert_self, Option.some_or]
        · rw [insert_of_ne st w.2 hk, insert_of_ne empty w.2 hk, empty_apply, Option.none_or]
      rw [applyWrites_cons, applyWrites_cons, ih, ih (empty.insert w.1 w.2), hinsert,
        Option.or_assoc]

/-- Duplicate-free lists of the same writes have the same effect in any order. -/
lemma applyWrites_perm {ws ws' : List (K × V)} (hp : ws.Perm ws')
    (hnd : (ws.map Prod.fst).Nodup) (st : Store K V) :
    st.applyWrites ws = st.applyWrites ws' := by
  have hnd' : (ws'.map Prod.fst).Nodup := (hp.map Prod.fst).nodup_iff.mp hnd
  funext k
  by_cases hk : k ∈ ws.map Prod.fst
  · obtain ⟨⟨k', v⟩, hmem, rfl⟩ := List.mem_map.mp hk
    rw [applyWrites_of_mem hnd hmem, applyWrites_of_mem hnd' (hp.subset hmem)]
  · rw [applyWrites_of_notMem hk, applyWrites_of_notMem (fun h => hk ((hp.map _).mem_iff.mpr h))]

end Store

end StablecoinSystem
