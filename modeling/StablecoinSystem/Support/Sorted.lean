import Mathlib.Data.List.Induction
import Mathlib.Order.Lattice

/-!
Ordered collections: the entries of a list by their keys, in rising order, the last
one where several have a key.

* `pairwise_collectBy`: the keys are strictly sorted;
* `mem_of_mem_collectBy`, `mem_map_collectBy`: nothing is added, and no key is lost;
* `collectBy_perm`: where the keys differ, the entries are those of the list.
-/

namespace StablecoinSystem

variable {α κ : Type} [LinearOrder κ] (key : α → κ)

/-- Insert an entry under its key, in place of what is there. -/
def insertBy (a : α) : List α → List α
  | [] => [a]
  | b :: l =>
      if key a < key b then a :: b :: l
      else if key a = key b then a :: l
      else b :: insertBy a l

/-- The entries of a list by their keys. -/
def collectBy (l : List α) : List α := l.foldl (fun entries a => insertBy key a entries) []

variable {key} {l : List α} {a b : α} {k : κ}

lemma mem_of_mem_insertBy (h : b ∈ insertBy key a l) : b = a ∨ b ∈ l := by
  induction l with
  | nil => simpa [insertBy] using h
  | cons c l ih =>
      rw [insertBy] at h
      split_ifs at h
      · simpa using h
      · rcases List.mem_cons.mp h with rfl | h
        · exact Or.inl rfl
        · exact Or.inr (List.mem_cons_of_mem _ h)
      · rcases List.mem_cons.mp h with rfl | h
        · exact Or.inr (List.mem_cons_self ..)
        · exact (ih h).imp_right (List.mem_cons_of_mem _)

lemma mem_map_insertBy : k ∈ (insertBy key a l).map key ↔ k = key a ∨ k ∈ l.map key := by
  induction l with
  | nil => simp [insertBy]
  | cons c l ih =>
      rw [insertBy]
      split_ifs with hlt heq
      · simp
      · simp [heq]
      · rw [List.map_cons, List.mem_cons, ih, List.map_cons, List.mem_cons]
        exact or_left_comm

lemma pairwise_insertBy (h : (l.map key).Pairwise (· < ·)) :
    ((insertBy key a l).map key).Pairwise (· < ·) := by
  induction l with
  | nil => simp [insertBy]
  | cons c l ih =>
      rw [List.map_cons, List.pairwise_cons] at h
      rw [insertBy]
      split_ifs with hlt heq
      · rw [List.map_cons, List.map_cons, List.pairwise_cons, List.pairwise_cons]
        refine ⟨fun k hk => ?_, h⟩
        rcases List.mem_cons.mp hk with rfl | hk
        · exact hlt
        · exact hlt.trans (h.1 k hk)
      · rw [List.map_cons, List.pairwise_cons, heq]
        exact h
      · rw [List.map_cons, List.pairwise_cons]
        refine ⟨fun k hk => ?_, ih h.2⟩
        rcases mem_map_insertBy.mp hk with rfl | hk
        · exact lt_of_le_of_ne (not_lt.mp hlt) (Ne.symm heq)
        · exact h.1 k hk

lemma insertBy_perm (h : key a ∉ l.map key) : (insertBy key a l).Perm (a :: l) := by
  induction l with
  | nil => exact List.Perm.refl _
  | cons c l ih =>
      rw [List.map_cons, List.mem_cons, not_or] at h
      rw [insertBy, if_neg h.1]
      split_ifs
      · exact List.Perm.refl _
      · exact ((ih h.2).cons c).trans (List.Perm.swap ..)

lemma collectBy_append_singleton (l : List α) (a : α) :
    collectBy key (l ++ [a]) = insertBy key a (collectBy key l) := by
  rw [collectBy, List.foldl_append, List.foldl_cons, List.foldl_nil, collectBy]

theorem pairwise_collectBy (key : α → κ) (l : List α) :
    ((collectBy key l).map key).Pairwise (· < ·) := by
  induction l using List.reverseRecOn with
  | nil => exact List.Pairwise.nil
  | append_singleton l a ih =>
      rw [collectBy_append_singleton]
      exact pairwise_insertBy ih

lemma pairwise_collectBy_id (l : List κ) : (collectBy id l).Pairwise (· < ·) := by
  have hkeys := pairwise_collectBy id l
  rwa [List.map_id] at hkeys

lemma mem_of_mem_collectBy (h : b ∈ collectBy key l) : b ∈ l := by
  induction l using List.reverseRecOn with
  | nil => exact h
  | append_singleton l a ih =>
      rw [collectBy_append_singleton] at h
      rw [List.mem_append, List.mem_singleton]
      exact (mem_of_mem_insertBy h).symm.imp_left ih

lemma mem_map_collectBy : k ∈ (collectBy key l).map key ↔ k ∈ l.map key := by
  induction l using List.reverseRecOn with
  | nil => exact Iff.rfl
  | append_singleton l a ih =>
      rw [collectBy_append_singleton, mem_map_insertBy, ih, List.map_append, List.mem_append,
        List.map_singleton, List.mem_singleton, or_comm]

/-- **Where the keys differ, all entries are kept.** -/
theorem collectBy_perm (h : (l.map key).Nodup) : (collectBy key l).Perm l := by
  induction l using List.reverseRecOn with
  | nil => exact List.Perm.refl _
  | append_singleton l a ih =>
      rw [List.map_append, List.map_singleton, List.nodup_append] at h
      have hnew : key a ∉ (collectBy key l).map key := fun hmem =>
        h.2.2 _ (mem_map_collectBy.mp hmem) _ (List.mem_singleton_self _) rfl
      rw [collectBy_append_singleton]
      exact (insertBy_perm hnew).trans
        (((ih h.1).cons a).trans (List.perm_append_singleton a l).symm)

end StablecoinSystem
