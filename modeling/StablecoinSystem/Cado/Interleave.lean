import StablecoinSystem.Cado.Ordering
import StablecoinSystem.Support.RoundRobin

/-!
`cado_interleave`: the groups of `cado_ordering`, drained round robin.

Both modes build the same sorted groups (`sortedGroups`); `cado_ordering`
concatenates them, `cado_interleave` sorts them by size and drains them. The
groups can be read off the concatenation, so the interleaved list depends on
nothing else (`cadoInterleave_congr`). What the round robin does to groups of
different domains is `roundRobin_perm`, `filter_roundRobin` and
`spread_roundRobin`.
-/

namespace StablecoinSystem

variable (domainHash : ℕ → ℕ)

/-- Steps 1 to 3 of both modes: the groups of the deduplicated transactions,
each sorted by `(sender, nonce, tx_hash)`. -/
def sortedGroups (txs : List StablecoinTx) : List (ℕ × List StablecoinTx) :=
  (domainGroups domainHash (dedup txs)).map fun g => (g.1, g.2.mergeSort StablecoinTx.groupLe)

/-- The comparison of the groups by size, the longest first. `sort_by` is
stable: groups of one size stay in the order of their hashes. -/
def longerFirst (a b : List StablecoinTx) : Bool := decide (b.length ≤ a.length)

lemma longerFirst_trans (a b c : List StablecoinTx) (hab : longerFirst a b = true)
    (hbc : longerFirst b c = true) : longerFirst a c = true := by
  simp only [longerFirst, decide_eq_true_eq] at hab hbc ⊢
  omega

lemma longerFirst_total (a b : List StablecoinTx) :
    (longerFirst a b || longerFirst b a) = true := by
  simp only [longerFirst, Bool.or_eq_true, decide_eq_true_eq]
  omega

/-- `cado_interleave`. -/
def cadoInterleave (txs : List StablecoinTx) : List StablecoinTx :=
  roundRobin (((sortedGroups domainHash txs).map Prod.snd).mergeSort longerFirst)

/-! ### The groups -/

/-- Step 4 of `cado_ordering` concatenates the sorted groups. -/
lemma cadoOrdering_eq_flatMap (txs : List StablecoinTx) :
    cadoOrdering domainHash txs = (sortedGroups domainHash txs).flatMap Prod.snd := by
  rw [cadoOrdering, concatSorted, sortedGroups, List.flatMap_map]

lemma sortedGroups_isGrouping (txs : List StablecoinTx) :
    IsGrouping (domainKey domainHash) (sortedGroups domainHash txs) where
  sorted := (groupsOf_isGrouping (domainKey domainHash) (dedup txs)).sorted.map _ fun _ _ => id
  keyed := List.forall_mem_map.mpr fun g hg a ha =>
    (groupsOf_isGrouping (domainKey domainHash) (dedup txs)).keyed g hg a (List.mem_mergeSort.mp ha)

lemma sortedGroups_ne_nil (txs : List StablecoinTx) :
    ∀ g ∈ sortedGroups domainHash txs, g.2 ≠ [] := by
  refine List.forall_mem_map.mpr fun g hg (hnil : g.2.mergeSort StablecoinTx.groupLe = []) => ?_
  have hlen := (List.mergeSort_perm g.2 StablecoinTx.groupLe).length_eq
  have hsome := List.length_pos_iff.mpr (groupsOf_ne_nil (domainKey domainHash) (dedup txs) g hg)
  have hzero := List.length_eq_zero_iff.mpr hnil
  omega

/-- The interleaved list depends on the concatenated one only. -/
lemma cadoInterleave_congr {txs₁ txs₂ : List StablecoinTx}
    (h : cadoOrdering domainHash txs₁ = cadoOrdering domainHash txs₂) :
    cadoInterleave domainHash txs₁ = cadoInterleave domainHash txs₂ := by
  rw [cadoOrdering_eq_flatMap, cadoOrdering_eq_flatMap] at h
  have hgroups := (sortedGroups_isGrouping domainHash txs₁).eq_of_flatMap_eq _
    (sortedGroups_isGrouping domainHash txs₂) (sortedGroups_ne_nil domainHash txs₁)
    (sortedGroups_ne_nil domainHash txs₂) h
  rw [cadoInterleave, cadoInterleave, hgroups]

/-! ### What interleaving keeps -/

/-- The groups in the order in which they are drained. -/
lemma groupsBySize_perm (txs : List StablecoinTx) :
    (((sortedGroups domainHash txs).map Prod.snd).mergeSort longerFirst).Perm
      ((sortedGroups domainHash txs).map Prod.snd) :=
  List.mergeSort_perm _ _

/-- Transactions of different groups have different domains. -/
lemma sortedGroups_apart (txs : List StablecoinTx) :
    ((sortedGroups domainHash txs).map Prod.snd).Pairwise
      fun g g' => ∀ a ∈ g, ∀ b ∈ g', a.conflictDomain ≠ b.conflictDomain := by
  obtain ⟨hsorted, hkeyed⟩ := sortedGroups_isGrouping domainHash txs
  refine List.pairwise_map.mpr (hsorted.imp_of_mem fun {g g'} hg hg' hlt a ha b hb heq => ?_)
  have hkey : domainKey domainHash a = domainKey domainHash b := by
    rw [domainKey, domainKey, heq]
  rw [hkeyed g hg a ha, hkeyed g' hg' b hb] at hkey
  exact hlt.ne hkey

lemma cadoInterleave_perm (txs : List StablecoinTx) :
    (cadoInterleave domainHash txs).Perm (cadoOrdering domainHash txs) := by
  rw [cadoOrdering_eq_flatMap]
  exact (roundRobin_perm _).trans (groupsBySize_perm domainHash txs).flatten

/-- The transactions of a domain keep the order `cado_ordering` gives them; they
are in one group whether or not the hash tells the domains apart. -/
lemma filter_cadoInterleave (txs : List StablecoinTx) (domain : ℕ) :
    (cadoInterleave domainHash txs).filter (fun tx => tx.conflictDomain = domain) =
      (cadoOrdering domainHash txs).filter (fun tx => tx.conflictDomain = domain) := by
  have hone : OneGroup (fun tx : StablecoinTx => tx.conflictDomain = domain)
      ((sortedGroups domainHash txs).map Prod.snd) := by
    refine (sortedGroups_apart domainHash txs).imp fun hne a ha b hb hab => hne a ha b hb ?_
    rw [of_decide_eq_true hab.1, of_decide_eq_true hab.2]
  -- sorting by size only permutes the groups, and the domain is in one of them
  have hperm := groupsBySize_perm domainHash txs
  have hone' := List.Pairwise.perm hone hperm.symm fun hne a ha b hb hab =>
    hne b hb a ha hab.symm
  rw [cadoOrdering_eq_flatMap, cadoInterleave, filter_roundRobin hone']
  exact (hone.filter_flatten_eq_of_perm hperm.symm).symm

/-- Sorted by size, the groups satisfy what `spread_roundRobin` asks for. -/
lemma groupsBySize_descending {txs : List StablecoinTx}
    (hinj : Set.InjOn domainHash (domainsOf txs)) :
    Descending StablecoinTx.conflictDomain
      (((sortedGroups domainHash txs).map Prod.snd).mergeSort longerFirst) where
  shorter := (List.pairwise_mergeSort longerFirst_trans longerFirst_total _).imp
    fun {g g'} hle => of_decide_eq_true hle
  uniform := by
    intro group hgroup a ha b hb
    rw [List.mem_mergeSort, List.mem_map] at hgroup
    obtain ⟨g, hg, rfl⟩ := hgroup
    -- one group has one hash, which tells one domain of the block
    have hkeyed := (sortedGroups_isGrouping domainHash txs).keyed g hg
    have hpresent (x : StablecoinTx) (hx : x ∈ g.2) : x.conflictDomain ∈ domainsOf txs := by
      refine ⟨x, mem_of_mem_cadoOrdering domainHash ?_, rfl⟩
      rw [cadoOrdering_eq_flatMap]
      exact List.mem_flatMap.mpr ⟨g, hg, hx⟩
    exact hinj (hpresent a ha) (hpresent b hb) ((hkeyed a ha).trans (hkeyed b hb).symm)
  apart := (sortedGroups_apart domainHash txs).perm (groupsBySize_perm domainHash txs).symm
    fun hne a ha b hb => (hne b hb a ha).symm

/-- **Interleaving spreads the domains and loses nothing.** If the hash tells
the domains of the block apart, the result has the transactions of
`cado_ordering`, those of each domain in the same order, and two adjacent
transactions share their domain only where all other domains are exhausted. -/
theorem cadoInterleave_spread (txs : List StablecoinTx)
    (hinj : Set.InjOn domainHash (domainsOf txs)) :
    (cadoInterleave domainHash txs).Perm (cadoOrdering domainHash txs) ∧
    (∀ domain, (cadoInterleave domainHash txs).filter (fun tx => tx.conflictDomain = domain) =
      (cadoOrdering domainHash txs).filter (fun tx => tx.conflictDomain = domain)) ∧
    Spread StablecoinTx.conflictDomain (cadoInterleave domainHash txs) :=
  ⟨cadoInterleave_perm domainHash txs, filter_cadoInterleave domainHash txs,
    spread_roundRobin (groupsBySize_descending domainHash hinj)⟩

/-- Three transfers to account 2 and one to account 3, with the domain itself as
its hash. -/
theorem cadoInterleave_spread_four :
    Spread StablecoinTx.conflictDomain (cadoInterleave id
      [⟨.transfer 1 2 10, 0, 100⟩, ⟨.transfer 1 2 10, 1, 101⟩, ⟨.transfer 1 3 10, 2, 102⟩,
        ⟨.transfer 1 2 10, 3, 103⟩]) :=
  (cadoInterleave_spread id _ fun _ _ _ _ heq => heq).2.2

/-! ### Dependence on the order of the input -/

/-- **Transactions that differ in sender or nonce are interleaved alike, however
they come in**: two orders of the same transactions give the same list. -/
theorem cadoInterleave_eq_of_perm {txs₁ txs₂ : List StablecoinTx} (hperm : txs₁.Perm txs₂)
    (hkeys : txs₁.Pairwise (fun a b => a.senderNonce ≠ b.senderNonce)) :
    cadoInterleave domainHash txs₁ = cadoInterleave domainHash txs₂ :=
  cadoInterleave_congr domainHash (cadoOrdering_eq_of_perm domainHash hperm hkeys)

/-- Two transfers of one sender in both orders. -/
theorem cadoInterleave_swap :
    cadoInterleave id [⟨.transfer 1 2 10, 0, 100⟩, ⟨.transfer 1 3 10, 1, 101⟩] =
      cadoInterleave id [⟨.transfer 1 3 10, 1, 101⟩, ⟨.transfer 1 2 10, 0, 100⟩] :=
  cadoInterleave_eq_of_perm id (List.Perm.swap _ _ _) (by decide)

end StablecoinSystem
