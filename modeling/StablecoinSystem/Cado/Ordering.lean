import Mathlib.Data.Set.Function
import StablecoinSystem.Ledger.Tx
import StablecoinSystem.Support.Grouping

/-!
`leap/src/cado.rs`: the conflict-aware deterministic ordering.

`cado_ordering` deduplicates by `(sender, nonce)`, groups by the hash of the
conflict domain, sorts each group and concatenates the groups. The hash of a
domain (`DefaultHasher` in the source) is a parameter.

* `cadoOrdering_perm` and `cadoOrdering_strict`: the result has the
  transactions deduplication keeps, strictly increasing in
  `(domain hash, sender, nonce)`.
* `cadoOrdering_spec`: the result is the only list of this kind, and where the
  hash tells the domains of the block apart, each of them is contiguous.
* `cadoOrdering_eq_iff`: two inputs are ordered alike exactly if each
  `(sender, nonce)` is carried first by the same transaction in both. The
  order of the input therefore matters as soon as two transactions share
  sender and nonce (`cadoOrdering_not_perm_invariant`).
-/

namespace StablecoinSystem

namespace StablecoinTx

/-- The key of deduplication, `(sender(), nonce)`. -/
def senderNonce (tx : StablecoinTx) : ℕ × ℕ := (tx.sender, tx.nonce)

/-- The comparison of `sort_by` inside a group: by sender, then nonce, then
transaction hash. -/
def groupLe (a b : StablecoinTx) : Bool :=
  if a.sender = b.sender then
    if a.nonce = b.nonce then decide (a.txHash ≤ b.txHash) else decide (a.nonce < b.nonce)
  else decide (a.sender < b.sender)

lemma groupLe_iff {a b : StablecoinTx} :
    a.groupLe b = true ↔ a.sender < b.sender ∨ a.sender = b.sender ∧
      (a.nonce < b.nonce ∨ a.nonce = b.nonce ∧ a.txHash ≤ b.txHash) := by
  rw [groupLe]
  split
  · split
    · rw [decide_eq_true_eq]; omega
    · rw [decide_eq_true_eq]; omega
  · rw [decide_eq_true_eq]; omega

lemma groupLe_trans (a b c : StablecoinTx) (hab : a.groupLe b = true) (hbc : b.groupLe c = true) :
    a.groupLe c = true := by
  rw [groupLe_iff] at hab hbc ⊢
  omega

lemma groupLe_total (a b : StablecoinTx) : (a.groupLe b || b.groupLe a) = true := by
  rw [Bool.or_eq_true, groupLe_iff, groupLe_iff]
  omega

end StablecoinTx

variable (domainHash : ℕ → ℕ)

/-- The hash of a transaction's conflict domain, the key of its group. -/
def domainKey (tx : StablecoinTx) : ℕ := domainHash tx.conflictDomain

/-- Step 1 of `cado_ordering`: keep the first transaction of each
`(sender, nonce)`. -/
def dedup (txs : List StablecoinTx) : List StablecoinTx :=
  retainFirst StablecoinTx.senderNonce [] txs

/-- `domain_groups` of `cado_ordering`, before the groups are sorted. -/
def domainGroups (txs : List StablecoinTx) : List (ℕ × List StablecoinTx) :=
  groupsOf (domainKey domainHash) txs

/-- `cado_ordering`. -/
def cadoOrdering (txs : List StablecoinTx) : List StablecoinTx :=
  concatSorted StablecoinTx.groupLe (domainGroups domainHash (dedup txs))

/-- The strict order of the result: by domain hash, then sender, then nonce. -/
def CadoLt (a b : StablecoinTx) : Prop :=
  domainKey domainHash a < domainKey domainHash b ∨
    domainKey domainHash a = domainKey domainHash b ∧
      (a.sender < b.sender ∨ a.sender = b.sender ∧ a.nonce < b.nonce)

lemma CadoLt.asymm {a b : StablecoinTx} (hab : CadoLt domainHash a b)
    (hba : CadoLt domainHash b a) : False := by
  rw [CadoLt] at hab hba
  omega

/-! ### What the result is -/

/-- Ordering loses and invents nothing beyond deduplication. -/
lemma cadoOrdering_perm (txs : List StablecoinTx) :
    (cadoOrdering domainHash txs).Perm (dedup txs) :=
  (concatSorted_perm StablecoinTx.groupLe _).trans (groupsOf_perm (domainKey domainHash) _)

lemma cadoOrdering_keys_ne (txs : List StablecoinTx) :
    (cadoOrdering domainHash txs).Pairwise (fun a b => a.senderNonce ≠ b.senderNonce) :=
  (retainFirst_keys_ne StablecoinTx.senderNonce [] txs).perm (cadoOrdering_perm domainHash txs).symm
    fun h heq => h heq.symm

/-- The result is strictly increasing: inside a group the transaction hash
never decides, since deduplication left one transaction per `(sender, nonce)`. -/
lemma cadoOrdering_strict (txs : List StablecoinTx) :
    (cadoOrdering domainHash txs).Pairwise (CadoLt domainHash) := by
  have hordered := concatSorted_pairwise (domainKey domainHash) StablecoinTx.groupLe
    StablecoinTx.groupLe_trans StablecoinTx.groupLe_total
    (groupsOf_isGrouping (domainKey domainHash) (dedup txs))
  refine (hordered.and (cadoOrdering_keys_ne domainHash txs)).imp ?_
  rintro a b ⟨hlt | ⟨heq, hle⟩, hne⟩
  · exact Or.inl hlt
  · refine Or.inr ⟨heq, ?_⟩
    -- sender and nonce differ, so the hash of the transaction is never compared
    have hne : ¬(a.sender = b.sender ∧ a.nonce = b.nonce) := by
      simpa only [StablecoinTx.senderNonce, ne_eq, Prod.mk.injEq] using hne
    rw [StablecoinTx.groupLe_iff] at hle
    omega

/-- Two strictly ordered lists with the same transactions are equal. -/
lemma cadoOrdering_eq_iff_dedup_perm {txs₁ txs₂ : List StablecoinTx} :
    cadoOrdering domainHash txs₁ = cadoOrdering domainHash txs₂ ↔
      (dedup txs₁).Perm (dedup txs₂) := by
  have h₁ := cadoOrdering_perm domainHash txs₁
  have h₂ := cadoOrdering_perm domainHash txs₂
  constructor
  · intro heq
    rw [heq] at h₁
    exact h₁.symm.trans h₂
  · intro hperm
    refine ((h₁.trans hperm).trans h₂.symm).eq_of_pairwise ?_
      (cadoOrdering_strict domainHash txs₁) (cadoOrdering_strict domainHash txs₂)
    intro a b _ _ hab hba
    exact (CadoLt.asymm domainHash hab hba).elim

/-- The conflict domains of a list of transactions. -/
def domainsOf (txs : List StablecoinTx) : Set ℕ := {domain | ∃ tx ∈ txs, tx.conflictDomain = domain}

lemma mem_of_mem_cadoOrdering {txs : List StablecoinTx} {tx : StablecoinTx}
    (h : tx ∈ cadoOrdering domainHash txs) : tx ∈ txs := by
  rw [(cadoOrdering_perm domainHash txs).mem_iff, dedup, mem_retainFirst_iff] at h
  exact List.mem_of_find?_eq_some h

/-- Transactions of one domain are contiguous if the hash tells the domains of
the input apart: the hash cannot go up and come back. -/
lemma cadoOrdering_contiguous {txs : List StablecoinTx}
    (hinj : Set.InjOn domainHash (domainsOf txs)) {a b c : StablecoinTx}
    (hsub : [a, b, c].Sublist (cadoOrdering domainHash txs))
    (hdomain : a.conflictDomain = c.conflictDomain) : b.conflictDomain = a.conflictDomain := by
  have hlt := (cadoOrdering_strict domainHash txs).sublist hsub
  simp only [List.pairwise_cons, List.mem_cons, List.not_mem_nil, or_false, forall_eq_or_imp,
    forall_eq, CadoLt] at hlt
  have hpresent (x : StablecoinTx) (hx : x ∈ [a, b, c]) : x.conflictDomain ∈ domainsOf txs :=
    ⟨x, mem_of_mem_cadoOrdering domainHash (hsub.subset hx), rfl⟩
  have hkey : domainKey domainHash a = domainKey domainHash c := by
    rw [domainKey, domainKey, hdomain]
  -- the keys rise from `a` to `c` and are equal at both ends
  refine hinj (hpresent b (by simp)) (hpresent a (by simp)) ?_
  show domainKey domainHash b = domainKey domainHash a
  omega

/-- **What `cado_ordering` computes**: the only list that has the transactions
whose `(sender, nonce)` did not occur earlier and is strictly increasing. Each
`(sender, nonce)` of the input occurs in it once, and each domain is contiguous
as far as the hash tells the domains apart. -/
theorem cadoOrdering_spec (txs : List StablecoinTx) :
    (∀ result, result = cadoOrdering domainHash txs ↔
      result.Perm (withoutRepeats StablecoinTx.senderNonce txs) ∧
        result.Pairwise (CadoLt domainHash)) ∧
    (∀ tx ∈ txs, (cadoOrdering domainHash txs).countP
      (fun other => other.senderNonce = tx.senderNonce) = 1) ∧
    (Set.InjOn domainHash (domainsOf txs) → ∀ a b c,
      [a, b, c].Sublist (cadoOrdering domainHash txs) →
        a.conflictDomain = c.conflictDomain → b.conflictDomain = a.conflictDomain) := by
  have hperm := cadoOrdering_perm domainHash txs
  have hstrict := cadoOrdering_strict domainHash txs
  refine ⟨fun result => ?_, fun tx htx => ?_, fun hinj a b c => cadoOrdering_contiguous _ hinj⟩
  · rw [← retainFirst_eq_withoutRepeats]
    constructor
    · rintro rfl
      exact ⟨hperm, hstrict⟩
    · rintro ⟨hperm', hstrict'⟩
      exact (hperm'.trans hperm.symm).eq_of_pairwise
        (fun a b _ _ hab hba => (CadoLt.asymm domainHash hab hba).elim) hstrict' hstrict
  · rw [hperm.countP_eq]
    exact countP_retainFirst StablecoinTx.senderNonce htx

/-! ### Dependence on the order of the input -/

/-- The first transaction of the list that carries `nonce` for `sender`, the
one deduplication keeps. -/
def firstCarrying (sender nonce : ℕ) (txs : List StablecoinTx) : Option StablecoinTx :=
  txs.find? (fun tx => tx.senderNonce = (sender, nonce))

/-- **Two inputs, in particular two orders of the same transactions, give the
same result exactly if each `(sender, nonce)` is carried first by the same
transaction in both.** -/
theorem cadoOrdering_eq_iff (txs₁ txs₂ : List StablecoinTx) :
    cadoOrdering domainHash txs₁ = cadoOrdering domainHash txs₂ ↔
      ∀ sender nonce, firstCarrying sender nonce txs₁ = firstCarrying sender nonce txs₂ := by
  rw [cadoOrdering_eq_iff_dedup_perm, dedup, dedup, retainFirst_perm_iff]
  exact Prod.forall

/-- Two transfers of one sender with the same nonce: deduplication keeps
whichever stands first, so the two orders give different results under every
domain hash. -/
theorem cadoOrdering_not_perm_invariant :
    ∃ txs₁ txs₂ : List StablecoinTx, txs₁.Perm txs₂ ∧
      ∀ domainHash, cadoOrdering domainHash txs₁ ≠ cadoOrdering domainHash txs₂ := by
  refine ⟨[⟨.transfer 1 2 10, 0, 100⟩, ⟨.transfer 1 3 10, 0, 200⟩],
    [⟨.transfer 1 3 10, 0, 200⟩, ⟨.transfer 1 2 10, 0, 100⟩], List.Perm.swap _ _ _, ?_⟩
  intro domainHash heq
  have hperm := (cadoOrdering_eq_iff_dedup_perm domainHash).mp heq
  revert hperm
  decide

/-- Transactions that differ in sender or nonce come out in one order, however
they come in. -/
lemma cadoOrdering_eq_of_perm {txs₁ txs₂ : List StablecoinTx} (hperm : txs₁.Perm txs₂)
    (hkeys : txs₁.Pairwise (fun a b => a.senderNonce ≠ b.senderNonce)) :
    cadoOrdering domainHash txs₁ = cadoOrdering domainHash txs₂ := by
  have hkeys₂ := hkeys.perm hperm fun h heq => h heq.symm
  rw [cadoOrdering_eq_iff_dedup_perm, dedup, dedup,
    retainFirst_eq_self StablecoinTx.senderNonce hkeys,
    retainFirst_eq_self StablecoinTx.senderNonce hkeys₂]
  exact hperm

end StablecoinSystem
