import StablecoinSystem.Narwhal.Dag
import StablecoinSystem.Support.Weights

/-!
The stake of sets of authorities, and what the thresholds of a committee mean
(`config/src/lib.rs`).

* `sum_map_stake`: the stake of a list of distinct names is that of the
  authorities among them;
* `quorumThreshold_le_iff`, `validityThreshold_le_iff`: a quorum is more than two
  thirds of the stake, the validity threshold a third, if no sum of stakes
  overflows;
* `exists_common_of_validity`: a quorum meets every set that has the validity
  threshold.
-/

namespace StablecoinSystem

namespace Committee

open Finset

variable (committee : Committee)

/-- The set of the authorities. -/
def members : Finset ℕ := committee.keys.toFinset

/-- The stake of a set of names. -/
def weight (names : Finset ℕ) : ℕ := ∑ name ∈ names, committee.stake name

variable {committee}

lemma nodup_keys : committee.keys.Nodup :=
  committee.sorted.imp fun h => Nat.ne_of_lt h

/-- A stranger has no stake. -/
lemma stake_eq_zero {name : ℕ} (h : name ∉ committee.members) : committee.stake name = 0 := by
  have hnone : committee.authorities.lookup name = none := by
    rw [List.lookup_eq_none_iff]
    intro entry hentry
    have hkey : entry.1 ∈ committee.members :=
      List.mem_toFinset.mpr (List.mem_map_of_mem hentry)
    exact bne_iff_ne.mpr fun heq => h (heq ▸ hkey)
  rw [stake, hnone, Option.getD_none]

lemma mem_members_of_stake_pos {name : ℕ} (h : 0 < committee.stake name) :
    name ∈ committee.members := by
  by_contra hnot
  rw [stake_eq_zero hnot] at h
  exact Nat.lt_irrefl 0 h

/-- Each authority is found under its own name. -/
lemma map_stake_keys : committee.keys.map committee.stake = committee.authorities.map Prod.snd := by
  rw [keys, List.map_map]
  refine List.map_congr_left fun entry hentry => ?_
  have hlookup : committee.authorities.lookup entry.1 = some entry.2 := by
    obtain ⟨pre, post, hsplit⟩ := List.append_of_mem hentry
    refine List.lookup_eq_some_iff.mpr ⟨pre, post, hsplit, fun e he => ?_⟩
    have hnodup := committee.nodup_keys
    rw [keys, hsplit, List.map_append, List.nodup_append] at hnodup
    exact bne_iff_ne.mpr fun heq => hnodup.2.2 _ (List.mem_map_of_mem he) _
      (List.mem_cons_self ..) heq.symm
  rw [Function.comp_apply, stake, hlookup, Option.getD_some]

lemma weight_members : committee.weight committee.members = committee.totalStake := by
  rw [weight, members, List.sum_toFinset _ nodup_keys, map_stake_keys, totalStake]

/-- The stake of distinct names is that of the authorities among them. -/
lemma sum_map_stake {names : List ℕ} (hnames : names.Nodup) :
    (names.map committee.stake).sum = committee.weight (names.toFinset ∩ committee.members) := by
  rw [← List.sum_toFinset _ hnames, weight]
  refine (sum_subset inter_subset_left fun name hname hnot => stake_eq_zero fun hmem => ?_).symm
  exact hnot (mem_inter.mpr ⟨hname, hmem⟩)

/-- Distinct names have no more stake than all authorities. -/
lemma sum_map_stake_le (committee : Committee) {names : List ℕ} (hnames : names.Nodup) :
    (names.map committee.stake).sum ≤ committee.totalStake := by
  rw [sum_map_stake hnames, ← weight_members]
  exact sum_le_sum_of_subset inter_subset_right

lemma totalVotes_le : committee.totalVotes ≤ committee.totalStake := Nat.mod_le _ _

lemma totalVotes_eq (hfits : committee.Fits) : committee.totalVotes = committee.totalStake := by
  rw [Fits] at hfits
  exact Nat.mod_eq_of_lt (by omega)

lemma quorumThreshold_le_iff (hfits : committee.Fits) {n : ℕ} :
    committee.quorumThreshold ≤ n ↔ 2 * committee.totalStake < 3 * n := by
  rw [quorumThreshold, totalVotes_eq hfits, Nat.mod_eq_of_lt hfits]
  omega

lemma validityThreshold_le_iff (hfits : committee.Fits) {n : ℕ} :
    committee.validityThreshold ≤ n ↔ committee.totalStake ≤ 3 * n := by
  have hlt : committee.totalStake + 2 < 2 ^ 32 := by
    rw [Fits] at hfits
    omega
  rw [validityThreshold, totalVotes_eq hfits, Nat.mod_eq_of_lt hlt]
  omega

/-- **A quorum meets every set that has the validity threshold.** -/
theorem exists_common_of_validity (hfits : committee.Fits) {names names' : List ℕ}
    (hnames : names.Nodup) (hnames' : names'.Nodup)
    (hquorum : committee.quorumThreshold ≤ (names.map committee.stake).sum)
    (hvalidity : committee.validityThreshold ≤ (names'.map committee.stake).sum) :
    ∃ name ∈ names, name ∈ names' := by
  rw [quorumThreshold_le_iff hfits, sum_map_stake hnames, ← weight_members] at hquorum
  rw [validityThreshold_le_iff hfits, sum_map_stake hnames', ← weight_members] at hvalidity
  have hsub : ∀ l : List ℕ, l.toFinset ∩ committee.members ⊆ committee.members :=
    fun _ => inter_subset_right
  obtain ⟨name, hmem, hmem', -⟩ := exists_mem_inter_of_weight committee.stake ∅ (hsub names)
    (hsub names') (by
      simp only [weight] at hquorum hvalidity
      rw [sum_empty]
      omega)
  exact ⟨name, List.mem_toFinset.mp (mem_inter.mp hmem).1,
    List.mem_toFinset.mp (mem_inter.mp hmem').1⟩

end Committee

end StablecoinSystem
