import Mathlib.Algebra.BigOperators.Group.Finset.Basic
import Mathlib.Algebra.Order.BigOperators.Group.Finset

/-!
Counting weights up to a threshold.

A tally counts each key once and fires when the weight since it last fired reaches
the threshold. Twice the threshold being more than all keys weigh, it fires once.

* `Tally.Counts`: the state of a tally that has been given some keys;
* `Tally.add_fires_iff`: it fires for the key with which the keys reach the
  threshold, and for no other.
-/

namespace StablecoinSystem

open Finset

/-- The weight since the tally last fired, and the keys counted. -/
structure Tally (κ : Type) where
  weight : ℕ
  used : List κ

namespace Tally

variable {κ : Type} [DecidableEq κ] (stake : κ → ℕ) (threshold : ℕ)

/-- Count a key that has not been counted, and fire if the weight reaches the
threshold. -/
def add (t : Tally κ) (key : κ) : Tally κ × Bool :=
  if key ∈ t.used then (t, false)
  else if threshold ≤ t.weight + stake key then (⟨0, t.used ++ [key]⟩, true)
  else (⟨t.weight + stake key, t.used ++ [key]⟩, false)

/-- The tally has been given `keys`: below the threshold the weight is theirs,
afterwards it has at least the threshold less. -/
structure Counts (keys : List κ) (t : Tally κ) : Prop where
  nodup : t.used.Nodup
  mem_used : ∀ key, key ∈ t.used ↔ key ∈ keys
  below : ∑ key ∈ keys.toFinset, stake key < threshold →
    t.weight = ∑ key ∈ keys.toFinset, stake key
  above : threshold ≤ ∑ key ∈ keys.toFinset, stake key →
    t.weight + threshold ≤ ∑ key ∈ keys.toFinset, stake key

variable {stake threshold} {keys : List κ} {t : Tally κ} {key : κ}

lemma counts_new : Counts stake threshold [] (⟨0, []⟩ : Tally κ) := by
  refine ⟨List.nodup_nil, fun _ => Iff.rfl, fun _ => ?_, fun h => ?_⟩
  · simp
  · simp only [List.toFinset_nil, sum_empty] at h ⊢
    omega

variable (stake) in
/-- The weight of the keys with one that has been counted, and with a new one. -/
lemma sum_append_singleton (keys : List κ) (key : κ) :
    ∑ k ∈ (keys ++ [key]).toFinset, stake k =
      if key ∈ keys then ∑ k ∈ keys.toFinset, stake k
      else ∑ k ∈ keys.toFinset, stake k + stake key := by
  have hset : (keys ++ [key]).toFinset = insert key keys.toFinset := by
    ext k
    simp
  rw [hset]
  split
  · rename_i hkey
    rw [insert_eq_of_mem (List.mem_toFinset.mpr hkey)]
  · rename_i hkey
    rw [sum_insert fun h => hkey (List.mem_toFinset.mp h), Nat.add_comm]

lemma Counts.weight_le (h : Counts stake threshold keys t) :
    t.weight ≤ ∑ k ∈ keys.toFinset, stake k := by
  rcases lt_or_ge (∑ k ∈ keys.toFinset, stake k) threshold with hless | hge
  · exact (h.below hless).le
  · have := h.above hge
    omega

/-- **A tally fires for the key with which the keys reach the threshold**, and for
no other, if all keys together weigh less than twice the threshold. -/
theorem add_fires_iff (h : Counts stake threshold keys t)
    (htotal : ∑ k ∈ (keys ++ [key]).toFinset, stake k < 2 * threshold) :
    (t.add stake threshold key).2 = true ↔ ∑ k ∈ keys.toFinset, stake k < threshold ∧
      threshold ≤ ∑ k ∈ (keys ++ [key]).toFinset, stake k := by
  rw [sum_append_singleton] at htotal ⊢
  rw [add]
  by_cases hkey : key ∈ keys
  · rw [if_pos ((h.mem_used key).mpr hkey), if_pos hkey]
    simp
  · rw [if_neg fun hused => hkey ((h.mem_used key).mp hused), if_neg hkey]
    rw [if_neg hkey] at htotal
    by_cases hless : ∑ k ∈ keys.toFinset, stake k < threshold
    · rw [h.below hless]
      split
      · simp_all
      · simp_all
    · have habove := h.above (not_lt.mp hless)
      rw [if_neg (by omega)]
      simp [hless]

/-- What a tally has been given, with one more key. -/
lemma Counts.add (h : Counts stake threshold keys t) (key : κ) :
    Counts stake threshold (keys ++ [key]) (t.add stake threshold key).1 := by
  by_cases hkey : key ∈ keys
  · have hused := (h.mem_used key).mpr hkey
    have hmem : ∀ k, k ∈ keys ↔ k ∈ keys ++ [key] := by
      intro k
      simp only [List.mem_append, List.mem_singleton]
      exact ⟨Or.inl, fun hk => hk.elim id fun heq => heq ▸ hkey⟩
    have hsum := sum_append_singleton stake keys key
    rw [if_pos hkey] at hsum
    rw [Tally.add, if_pos hused]
    exact ⟨h.nodup, fun k => (h.mem_used k).trans (hmem k), hsum ▸ h.below, hsum ▸ h.above⟩
  · have hused : key ∉ t.used := fun hused => hkey ((h.mem_used key).mp hused)
    have hsum := sum_append_singleton stake keys key
    rw [if_neg hkey] at hsum
    have hnodup : (t.used ++ [key]).Nodup :=
      h.nodup.append (List.nodup_singleton _) (List.disjoint_singleton.mpr hused)
    have hmem : ∀ k, k ∈ t.used ++ [key] ↔ k ∈ keys ++ [key] := by
      simp only [List.mem_append, h.mem_used, List.mem_singleton, implies_true]
    rw [Tally.add, if_neg hused]
    -- Below the threshold the weight is the sum of the keys; from there on it starts anew.
    split
    · rename_i hfire
      refine ⟨hnodup, hmem, fun hless => ?_, fun hle => ?_⟩
      · by_cases hbelow : ∑ k ∈ keys.toFinset, stake k < threshold
        · have := h.below hbelow
          omega
        · omega
      · simpa using hle
    · rename_i hfire
      refine ⟨hnodup, hmem, fun hless => ?_, fun hle => ?_⟩
      · have := h.below (by omega)
        simp only
        omega
      · by_cases hbelow : ∑ k ∈ keys.toFinset, stake k < threshold
        · have := h.below hbelow
          omega
        · have := h.above (not_lt.mp hbelow)
          simp only
          omega

end Tally

end StablecoinSystem
