import Mathlib.Algebra.Order.BigOperators.Group.Finset
import StablecoinSystem.Ledger.Conservation
import StablecoinSystem.Support.Loop

/-!
The `u64` arithmetic of the reference executor.

The money in the accounts comes from `funded_balance`, from mints and from
initialisations, so a bound on these bounds every balance: without
self-transfers no addition overflows. Nonces are bounded by the number of
transactions. The subtractions from balances are guarded; the one from the total
supply is not. Only mints add to the supply, so a burn of money that was funded
or initialised finds a supply that is too small.

* `Bounded`: the bound on the ledger after a list of transactions;
* `Bounded.applyTx`, `Bounded.applyTx_isSome`: a transaction keeps it, and goes
  through under it unless it is a burn that the supply does not cover;
* `serialExecute_isSome_iff`: a block within the bound runs through exactly if the
  supply covers every burn that finds its money.
-/

namespace StablecoinSystem

open Finset

/-- The money a transaction brings in: the amount of a mint or of an
initialisation. -/
def StablecoinTx.injected (tx : StablecoinTx) : ℕ :=
  match tx.txType with
  | .mint _ amount => amount
  | .initBalance _ amount => amount
  | .transfer _ _ _ | .burn _ _ => 0

/-- The sum of all mint and initialisation amounts. -/
def injectedTotal (txns : List StablecoinTx) : ℕ := (txns.map StablecoinTx.injected).sum

/-- The accounts the transactions mention. -/
def mentionedAccounts (txns : List StablecoinTx) : Finset ℕ :=
  (txns.flatMap StablecoinTx.accounts).toFinset

lemma injectedTotal_concat (txns : List StablecoinTx) (txn : StablecoinTx) :
    injectedTotal (txns ++ [txn]) = injectedTotal txns + txn.injected := by
  simp [injectedTotal]

/-! ### The bound -/

/-- After `txns`, the accounts together hold at most what was funded and brought
in, the supply is at most what was brought in, and no nonce exceeds the number of
transactions. -/
structure Bounded (funded : ℕ) (accts : Finset ℕ) (txns : List StablecoinTx) (st : Ledger) :
    Prop where
  total : totalBalance funded accts st ≤ (funded * accts.card + injectedTotal txns : ℕ)
  supply : st.supply ≤ injectedTotal txns
  nonce : ∀ a, st.nonce a ≤ txns.length

variable {funded : ℕ} {accts : Finset ℕ} {txns : List StablecoinTx} {st st' : Ledger}
  {txn : StablecoinTx}

lemma bounded_empty (funded : ℕ) (accts : Finset ℕ) : Bounded funded accts [] Store.empty where
  total := by simp [totalBalance, Ledger.balance, injectedTotal, mul_comm]
  supply := by simp [Ledger.supply]
  nonce := by simp [Ledger.nonce]

/-- An account holds at most what all of them hold, and so do two accounts. -/
lemma balance_le_total (funded : ℕ) (st : Ledger) {a : ℕ} (ha : a ∈ accts) :
    (st.balance funded a : ℤ) ≤ totalBalance funded accts st :=
  single_le_sum (f := fun a => (st.balance funded a : ℤ)) (fun _ _ => Int.natCast_nonneg _) ha

lemma add_balance_le_total (funded : ℕ) (st : Ledger) {a b : ℕ} (ha : a ∈ accts) (hb : b ∈ accts)
    (hne : a ≠ b) :
    (st.balance funded a + st.balance funded b : ℤ) ≤ totalBalance funded accts st := by
  rw [← sum_pair (f := fun a => (st.balance funded a : ℤ)) hne]
  refine sum_le_sum_of_subset_of_nonneg ?_ fun _ _ _ => Int.natCast_nonneg _
  exact insert_subset ha (singleton_subset_iff.mpr hb)

/-- A transaction brings in no more than its mint or initialisation amount. -/
lemma grantedChange_le_injected (funded : ℕ) (st : Ledger) (txn : StablecoinTx) :
    grantedChange funded st txn ≤ txn.injected := by
  rw [grantedChange, StablecoinTx.injected]
  cases txn.txType with
  | transfer sender receiver amount => simp
  | mint target amount => simp
  | burn source amount =>
      dsimp only
      split <;> simp
  | initBalance account amount => simp

lemma selfGain_eq_zero (hself : ¬txn.IsSelfTransfer) : selfGain funded st txn = 0 :=
  selfGain_eq_zero_iff.mpr fun account amount htx => absurd ⟨account, amount, htx⟩ hself

/-- Only mints add to the supply, and a nonce goes up by one at most. -/
lemma applyTx_supply_nonce {ok : Bool} (h : applyTx funded st txn = some (st', ok)) :
    st'.supply ≤ st.supply + txn.injected ∧ ∀ a, st'.nonce a ≤ st.nonce a + 1 := by
  rw [StablecoinTx.injected]
  cases htx : txn.txType with
  | transfer sender receiver amount =>
      rcases applyTx_transfer htx h with ⟨-, -, -, -, rfl⟩ | ⟨-, -, rfl⟩
      · refine ⟨by simp [Ledger.supply], fun a => ?_⟩
        by_cases ha : a = sender <;> simp [Ledger.nonce, ha]
      · exact ⟨by simp, by simp⟩
  | mint target amount =>
      obtain ⟨-, -, -, -, rfl⟩ := applyTx_mint htx h
      refine ⟨by simp [Ledger.supply], fun a => ?_⟩
      by_cases ha : a = 0 <;> simp [Ledger.nonce, ha]
  | burn source amount =>
      rcases applyTx_burn htx h with ⟨-, -, -, -, rfl⟩ | ⟨-, -, rfl⟩
      · refine ⟨by simp [Ledger.supply], fun a => ?_⟩
        by_cases ha : a = 0 <;> simp [Ledger.nonce, ha]
      · exact ⟨by simp, by simp⟩
  | initBalance account amount =>
      obtain ⟨-, rfl⟩ := applyTx_initBalance htx h
      exact ⟨by simp [Ledger.supply], by simp [Ledger.nonce]⟩

/-- **A transaction keeps the bound.** -/
lemma Bounded.applyTx {ok : Bool} (hst : Bounded funded accts txns st)
    (hacc : ∀ a ∈ txn.accounts, a ∈ accts) (hself : ¬txn.IsSelfTransfer)
    (h : applyTx funded st txn = some (st', ok)) : Bounded funded accts (txns ++ [txn]) st' := by
  obtain ⟨htotal, hsupply, hnonce⟩ := hst
  obtain ⟨hsupply', hnonce'⟩ := applyTx_supply_nonce h
  refine ⟨?_, ?_, fun a => ?_⟩
  · have hstep := applyTx_total hacc h
    have hgranted := grantedChange_le_injected funded st txn
    rw [selfGain_eq_zero hself] at hstep
    rw [injectedTotal_concat]
    push_cast at htotal hstep ⊢
    omega
  · rw [injectedTotal_concat]
    omega
  · have := hnonce a
    have := hnonce' a
    rw [List.length_append, List.length_singleton]
    omega

/-- **Under the bound a transaction goes through**, unless it is a burn that
finds its money but not enough supply. -/
lemma Bounded.applyTx_isSome (hst : Bounded funded accts txns st)
    (hacc : ∀ a ∈ txn.accounts, a ∈ accts) (hself : ¬txn.IsSelfTransfer)
    (hfunds : funded * accts.card + injectedTotal (txns ++ [txn]) < 2 ^ 64)
    (hlen : (txns ++ [txn]).length < 2 ^ 64)
    (hburn : ∀ source amount, txn.txType = .burn source amount →
      amount ≤ st.balance funded source → amount ≤ st.supply) :
    (StablecoinSystem.applyTx funded st txn).isSome := by
  obtain ⟨htotal, hsupply, hnonce⟩ := hst
  rw [injectedTotal_concat] at hfunds
  rw [List.length_append, List.length_singleton] at hlen
  have hnonce (a : ℕ) : addU64 (st.nonce a) 1 = some (st.nonce a + 1) :=
    addU64_of_lt (by have := hnonce a; omega)
  rw [StablecoinTx.accounts] at hacc
  rw [StablecoinTx.injected] at hfunds
  rw [StablecoinSystem.applyTx]
  cases htx : txn.txType with
  | transfer sender receiver amount =>
      have hne : sender ≠ receiver := by
        rintro rfl
        exact hself ⟨sender, amount, htx⟩
      simp only [htx, List.mem_cons, List.not_mem_nil, or_false, forall_eq_or_imp,
        forall_eq] at hacc
      -- the receiver's new balance is at most what the two accounts hold
      have hpair := add_balance_le_total funded st hacc.1 hacc.2 hne
      dsimp only
      split
      · rename_i hle
        have hcredit : addU64 (st.balance funded receiver) amount =
            some (st.balance funded receiver + amount) :=
          addU64_of_lt (by omega)
        simp [subU64_of_le hle, hcredit, hnonce]
      · rfl
  | mint target amount =>
      simp only [htx, List.mem_singleton, forall_eq] at hacc hfunds
      have hbal := balance_le_total funded st hacc
      have hcredit : addU64 (st.balance funded target) amount =
          some (st.balance funded target + amount) := addU64_of_lt (by omega)
      have hissue : addU64 st.supply amount = some (st.supply + amount) :=
        addU64_of_lt (by omega)
      simp [hcredit, hissue, hnonce]
  | burn source amount =>
      dsimp only
      split
      · rename_i hle
        simp [subU64_of_le hle, subU64_of_le (hburn source amount htx hle), hnonce]
      · rfl
  | initBalance account amount => rfl

/-! ### The run -/

/-- The supply covers every burn that finds its money: just before the burn, its
amount is above the balance or at most the total supply. -/
def BurnsCovered (funded : ℕ) (txns : List StablecoinTx) : Prop :=
  ForallSplit (fun pre txn => ∀ before source amount,
    serialExecuteWithBalance pre funded = some before → txn.txType = .burn source amount →
    amount ≤ before.balance funded source → amount ≤ before.supply) txns

/-- The bound holds along a run. -/
lemma bounded_of_serialExecute (hacc : ∀ txn ∈ txns, ∀ a ∈ txn.accounts, a ∈ accts)
    (hself : ∀ txn ∈ txns, ¬txn.IsSelfTransfer)
    (hrun : serialExecuteWithBalance txns funded = some st) : Bounded funded accts txns st := by
  induction txns using List.reverseRecOn generalizing st with
  | nil =>
      cases hrun
      exact bounded_empty funded accts
  | append_singleton txns txn ih =>
      simp only [List.forall_mem_append, List.forall_mem_singleton] at hacc hself
      rw [serialExecute_concat, Option.bind_eq_some_iff] at hrun
      obtain ⟨before, hbefore, hstep⟩ := hrun
      obtain ⟨⟨after, ok⟩, happly, rfl⟩ := Option.map_eq_some_iff.mp hstep
      exact (ih hacc.1 hself.1 hbefore).applyTx hacc.2 hself.2 happly

lemma isSome_iff_burnsCovered (hacc : ∀ txn ∈ txns, ∀ a ∈ txn.accounts, a ∈ accts)
    (hself : ∀ txn ∈ txns, ¬txn.IsSelfTransfer)
    (hfunds : funded * accts.card + injectedTotal txns < 2 ^ 64) (hlen : txns.length < 2 ^ 64) :
    (serialExecuteWithBalance txns funded).isSome ↔ BurnsCovered funded txns := by
  induction txns using List.reverseRecOn with
  | nil => exact iff_of_true rfl fun pre txn post hnil => by simp at hnil
  | append_singleton txns txn ih =>
      simp only [List.forall_mem_append, List.forall_mem_singleton] at hacc hself
      have hrest : injectedTotal txns ≤ injectedTotal (txns ++ [txn]) := by
        rw [injectedTotal_concat]
        exact Nat.le_add_right _ _
      have ih := ih hacc.1 hself.1 (by omega) (by rw [List.length_append] at hlen; omega)
      rw [serialExecute_concat, BurnsCovered, forallSplit_append_singleton, ← BurnsCovered, ← ih]
      constructor
      · intro hsome
        obtain ⟨after, hafter⟩ := Option.isSome_iff_exists.mp hsome
        obtain ⟨before, hbefore, hstep⟩ := Option.bind_eq_some_iff.mp hafter
        obtain ⟨⟨after, ok⟩, happly, rfl⟩ := Option.map_eq_some_iff.mp hstep
        refine ⟨by rw [hbefore]; rfl, fun before' source amount hbefore' htx hle => ?_⟩
        obtain rfl : before = before' := Option.some.inj (hbefore.symm.trans hbefore')
        rcases applyTx_burn htx happly with ⟨-, hsupply, -⟩ | ⟨hlt, -⟩
        · exact hsupply
        · omega
      · rintro ⟨hsome, hburn⟩
        obtain ⟨before, hbefore⟩ := Option.isSome_iff_exists.mp hsome
        have hbounded := bounded_of_serialExecute hacc.1 hself.1 hbefore
        rw [hbefore, Option.bind_some, Option.isSome_map]
        exact hbounded.applyTx_isSome hacc.2 hself.2 hfunds hlen
          fun source amount htx hle => hburn before source amount hbefore htx hle

/-- **The arithmetic of the reference executor.** For a block without
self-transfers whose accounts and injections fit into `u64`, no operation
overflows or underflows if and only if the total supply covers every burn that
finds its money. -/
theorem serialExecute_isSome_iff (funded : ℕ) (txns : List StablecoinTx)
    (hself : ∀ txn ∈ txns, ¬txn.IsSelfTransfer)
    (hfunds : funded * (mentionedAccounts txns).card + injectedTotal txns < 2 ^ 64)
    (hlen : txns.length < 2 ^ 64) :
    (serialExecuteWithBalance txns funded).isSome ↔ BurnsCovered funded txns := by
  refine isSome_iff_burnsCovered (fun txn htxn a ha => ?_) hself hfunds hlen
  rw [mentionedAccounts, List.mem_toFinset]
  exact List.mem_flatMap.mpr ⟨txn, htxn, ha⟩

/-- A mint covers the burn of what it brought in. -/
theorem burnsCovered_after_mint :
    BurnsCovered 10 [⟨.mint 1 5, 0, 0⟩, ⟨.transfer 1 2 12, 0, 0⟩, ⟨.burn 2 5, 1, 0⟩] :=
  (serialExecute_isSome_iff 10 _
    (by simp [StablecoinTx.IsSelfTransfer]) (by decide) (by decide)).mp (by decide)

/-- A funded account that burns `5` of its `10`: nothing was minted, and the
supply underflows. -/
theorem burn_of_funded_balance_underflows :
    ¬∀ (funded : ℕ) (txns : List StablecoinTx), (∀ txn ∈ txns, ¬txn.IsSelfTransfer) →
      funded * (mentionedAccounts txns).card + injectedTotal txns < 2 ^ 64 →
      txns.length < 2 ^ 64 → (serialExecuteWithBalance txns funded).isSome := by
  intro h
  have hsome := h 10 [⟨.burn 1 5, 0, 0⟩] (by simp [StablecoinTx.IsSelfTransfer]) (by decide)
    (by decide)
  revert hsome
  decide

end StablecoinSystem
