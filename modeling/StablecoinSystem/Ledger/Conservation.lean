import Mathlib.Algebra.BigOperators.Group.Finset.Piecewise
import Mathlib.Algebra.BigOperators.Ring.Finset
import Mathlib.Tactic.Ring
import Mathlib.Tactic.Linarith
import StablecoinSystem.Ledger.Serial

/-!
Conservation of money in the reference executor.

The law grants each transaction a change of the total of the balances: a mint
adds its amount, a successful burn removes it, an initialisation adds the
difference to what the account held, and a transfer adds nothing.  The executor
reads both balances of a transfer before it writes either, so a transfer of an
account to itself keeps the credit and loses the debit.

* `applyTx_total`: a transaction changes the total by what the law grants, plus
  the amount of a self-transfer that goes through (`selfGain`);
* `serialFrom_total`: the same along a run;
* `conservation_iff`: the law holds of a run exactly if every self-transfer in
  it moves nothing or finds too little money.
-/

namespace StablecoinSystem

open Finset

variable {funded : ℕ} {st st' : Ledger}

/-- The total of the effective balances over a set of accounts. -/
def totalBalance (funded : ℕ) (accts : Finset ℕ) (st : Ledger) : ℤ :=
  ∑ a ∈ accts, (st.balance funded a : ℤ)

/-- The change of the total that the conservation law grants a transaction: the
amount of a mint, minus that of a burn that goes through, and for an
initialisation the amount minus the balance just before it. -/
def grantedChange (funded : ℕ) (st : Ledger) (txn : StablecoinTx) : ℤ :=
  match txn.txType with
  | .transfer _ _ _ => 0
  | .mint _ amount => amount
  | .burn source amount => if amount ≤ st.balance funded source then -(amount : ℤ) else 0
  | .initBalance account amount => amount - st.balance funded account

/-- The granted changes of the transactions of a run, added up. -/
def grantedTotal (funded : ℕ) : Ledger → List StablecoinTx → ℤ
  | _, [] => 0
  | st, txn :: rest =>
      grantedChange funded st txn +
        ((applyTx funded st txn).elim 0 fun p => grantedTotal funded p.1 rest)

/-- The money a self-transfer creates. -/
def selfGain (funded : ℕ) (st : Ledger) (txn : StablecoinTx) : ℕ :=
  match txn.txType with
  | .transfer sender receiver amount =>
      if sender = receiver ∧ amount ≤ st.balance funded sender then amount else 0
  | _ => 0

/-- The money the self-transfers of a run create. -/
def selfGainTotal (funded : ℕ) : Ledger → List StablecoinTx → ℕ
  | _, [] => 0
  | st, txn :: rest =>
      selfGain funded st txn +
        ((applyTx funded st txn).elim 0 fun p => selfGainTotal funded p.1 rest)

/-! ### The total under single writes -/

@[simp] lemma balance_insert_balance (st : Ledger) (a a' v : ℕ) :
    Ledger.balance funded (st.insert (.balance a) v) a' =
      if a' = a then v else st.balance funded a' := by
  by_cases h : a' = a <;> simp [Ledger.balance, h]

lemma balance_insert_of_ne (st : Ledger) {k : StateKey} (v a : ℕ) (h : k ≠ .balance a) :
    Ledger.balance funded (st.insert k v) a = st.balance funded a := by
  simp [Ledger.balance, Store.insert_of_ne st v h.symm]

/-- Writing one balance changes the total by the new balance minus the old. -/
lemma totalBalance_insert {accts : Finset ℕ} {a : ℕ} (ha : a ∈ accts) (st : Ledger) (v : ℕ) :
    totalBalance funded accts (st.insert (.balance a) v) =
      totalBalance funded accts st + (v - st.balance funded a) := by
  rw [totalBalance, totalBalance, ← add_sum_erase accts _ ha, ← add_sum_erase accts _ ha]
  have hrest : ∑ b ∈ accts.erase a, (Ledger.balance funded (st.insert (.balance a) v) b : ℤ) =
      ∑ b ∈ accts.erase a, (st.balance funded b : ℤ) := by
    refine sum_congr rfl fun b hb => ?_
    rw [balance_insert_balance, if_neg (ne_of_mem_erase hb)]
  rw [hrest, balance_insert_balance, if_pos rfl]
  ring

/-- Writing a key that is no balance keeps the total. -/
lemma totalBalance_insert_of_ne {accts : Finset ℕ} (st : Ledger) {k : StateKey} (v : ℕ)
    (h : ∀ a, k ≠ .balance a) :
    totalBalance funded accts (st.insert k v) = totalBalance funded accts st :=
  sum_congr rfl fun a _ => by rw [balance_insert_of_ne st v a (h a)]

/-! ### The total under transactions -/

/-- One transaction changes the total by what the law grants it, plus the
amount of a self-transfer that goes through. -/
lemma applyTx_total {accts : Finset ℕ} {txn : StablecoinTx} {ok : Bool}
    (hacc : ∀ a ∈ txn.accounts, a ∈ accts) (h : applyTx funded st txn = some (st', ok)) :
    totalBalance funded accts st' =
      totalBalance funded accts st + grantedChange funded st txn + selfGain funded st txn := by
  rw [StablecoinTx.accounts] at hacc
  cases htx : txn.txType with
  | transfer sender receiver amount =>
      simp only [htx, List.mem_cons, List.not_mem_nil, or_false, forall_eq_or_imp,
        forall_eq] at hacc
      simp only [grantedChange, selfGain, htx]
      rcases applyTx_transfer htx h with ⟨hle, -, -, -, rfl⟩ | ⟨hlt, -, rfl⟩
      · rw [totalBalance_insert_of_ne _ _ (by simp), totalBalance_insert hacc.2,
          totalBalance_insert hacc.1, balance_insert_balance]
        -- the receiver's old balance is the debited one exactly for a self-transfer
        by_cases hsr : receiver = sender
        · subst hsr
          simp only [true_and, if_pos hle, if_true]
          push_cast [hle]
          ring
        · simp only [if_neg hsr, Ne.symm hsr, false_and, if_false]
          push_cast [hle]
          ring
      · rw [if_neg fun hc => absurd hc.2 (Nat.not_le.mpr hlt)]
        simp
  | mint target amount =>
      simp only [htx, List.mem_singleton, forall_eq] at hacc
      simp only [grantedChange, selfGain, htx]
      obtain ⟨-, -, -, -, rfl⟩ := applyTx_mint htx h
      rw [totalBalance_insert_of_ne _ _ (by simp), totalBalance_insert_of_ne _ _ (by simp),
        totalBalance_insert hacc]
      push_cast
      ring
  | burn source amount =>
      simp only [htx, List.mem_singleton, forall_eq] at hacc
      simp only [grantedChange, selfGain, htx]
      rcases applyTx_burn htx h with ⟨hle, -, -, -, rfl⟩ | ⟨hlt, -, rfl⟩
      · rw [totalBalance_insert_of_ne _ _ (by simp), totalBalance_insert_of_ne _ _ (by simp),
          totalBalance_insert hacc]
        simp only [if_pos hle]
        push_cast [hle]
        ring
      · simp only [if_neg (Nat.not_le.mpr hlt)]
        simp
  | initBalance account amount =>
      simp only [htx, List.mem_singleton, forall_eq] at hacc
      simp only [grantedChange, selfGain, htx]
      obtain ⟨-, rfl⟩ := applyTx_initBalance htx h
      rw [totalBalance_insert hacc]
      push_cast
      ring

/-- Along a run the total changes by what the law grants, plus what the
self-transfers create. -/
lemma serialFrom_total {accts : Finset ℕ} {txns : List StablecoinTx} {oks : List Bool}
    (hacc : ∀ txn ∈ txns, ∀ a ∈ txn.accounts, a ∈ accts)
    (h : serialFrom funded st txns = some (st', oks)) :
    totalBalance funded accts st' = totalBalance funded accts st + grantedTotal funded st txns +
      selfGainTotal funded st txns := by
  induction txns generalizing st oks with
  | nil =>
      simp only [serialFrom, Option.some.injEq, Prod.mk.injEq] at h
      simp [grantedTotal, selfGainTotal, h.1]
  | cons txn rest ih =>
      obtain ⟨st₁, ok, oks', hstep, hrest, rfl⟩ := serialFrom_cons.mp h
      rw [ih (fun t ht => hacc t (List.mem_cons_of_mem _ ht)) hrest,
        applyTx_total (hacc txn List.mem_cons_self) hstep]
      simp only [grantedTotal, selfGainTotal, hstep, Option.elim_some]
      push_cast
      ring

/-! ### When the law holds -/

/-- Every self-transfer of the run moves nothing or finds too little money: at
the ledger just before it, its amount is `0` or exceeds the balance. -/
def SelfTransfersIdle (funded : ℕ) (st : Ledger) (txns : List StablecoinTx) : Prop :=
  ∀ pre txn post before oks account amount, txns = pre ++ txn :: post →
    serialFrom funded st pre = some (before, oks) →
    txn.txType = .transfer account account amount →
    amount = 0 ∨ before.balance funded account < amount

lemma selfGain_eq_zero_iff {txn : StablecoinTx} :
    selfGain funded st txn = 0 ↔ ∀ account amount, txn.txType = .transfer account account amount →
      amount = 0 ∨ st.balance funded account < amount := by
  rw [selfGain]
  split
  next sender receiver amount htx =>
      rw [ite_eq_right_iff]
      constructor
      · intro h account amount' heq
        rw [htx, StablecoinTxType.transfer.injEq] at heq
        obtain ⟨rfl, hr, rfl⟩ := heq
        rcases Nat.lt_or_ge (st.balance funded sender) amount with hlt | hge
        · exact Or.inr hlt
        · exact Or.inl (h ⟨hr.symm, hge⟩)
      · rintro h ⟨hsr, hle⟩
        subst hsr
        exact (h _ _ htx).resolve_right (Nat.not_lt.mpr hle)
  next hne => simpa using fun account amount heq => absurd heq (hne account account amount)

/-- The self-transfers of a run create nothing exactly if they are idle. -/
lemma selfGainTotal_eq_zero_iff {txns : List StablecoinTx} {oks : List Bool}
    (h : serialFrom funded st txns = some (st', oks)) :
    selfGainTotal funded st txns = 0 ↔ SelfTransfersIdle funded st txns := by
  induction txns generalizing st oks with
  | nil => simp [selfGainTotal, SelfTransfersIdle]
  | cons txn rest ih =>
      obtain ⟨st₁, ok, oks', hstep, hrest, rfl⟩ := serialFrom_cons.mp h
      simp only [selfGainTotal, hstep, Option.elim_some, Nat.add_eq_zero_iff,
        selfGain_eq_zero_iff, ih hrest]
      constructor
      · -- the transaction in question is the first one or lies in the rest
        rintro ⟨hhead, htail⟩ pre txn' post before oks₀ account amount heq hpre htx
        cases pre with
        | nil =>
            simp only [List.nil_append, List.cons.injEq] at heq
            simp only [serialFrom, Option.some.injEq, Prod.mk.injEq] at hpre
            rw [← hpre.1]
            exact hhead account amount (heq.1 ▸ htx)
        | cons p pre =>
            simp only [List.cons_append, List.cons.injEq] at heq
            obtain ⟨rfl, heq⟩ := heq
            obtain ⟨st₂, ok₂, oks₂, hstep₂, hpre₂, rfl⟩ := serialFrom_cons.mp hpre
            rw [hstep] at hstep₂
            simp only [Option.some.injEq, Prod.mk.injEq] at hstep₂
            obtain ⟨rfl, rfl⟩ := hstep₂
            exact htail pre txn' post before oks₂ account amount heq hpre₂ htx
      · intro hidle
        refine ⟨fun account amount htx => hidle [] txn rest st [] account amount rfl rfl htx, ?_⟩
        intro pre txn' post before oks₀ account amount heq hpre htx
        exact hidle (txn :: pre) txn' post before (ok :: oks₀) account amount (by rw [heq]; rfl)
          (serialFrom_cons.mpr ⟨st₁, ok, oks₀, hstep, hpre, rfl⟩) htx

/-- **Conservation of money.** For a run of the reference executor in which no
`u64` operation overflows or underflows, over any set of accounts containing
those mentioned, the total of the balances changes by the mints, the successful
burns and the initialisations alone if and only if every self-transfer moves
nothing or finds too little money. -/
theorem conservation_iff (funded : ℕ) (txns : List StablecoinTx) (accts : Finset ℕ) (st : Ledger)
    (hacc : ∀ txn ∈ txns, ∀ a ∈ txn.accounts, a ∈ accts)
    (hrun : serialExecuteWithBalance txns funded = some st) :
    totalBalance funded accts st =
        totalBalance funded accts Store.empty + grantedTotal funded Store.empty txns ↔
      SelfTransfersIdle funded Store.empty txns := by
  obtain ⟨⟨st', oks⟩, hfrom, rfl⟩ := Option.map_eq_some_iff.mp hrun
  rw [← selfGainTotal_eq_zero_iff hfrom, serialFrom_total hacc hfrom]
  constructor
  · intro h
    have : (selfGainTotal funded Store.empty txns : ℤ) = 0 := by linarith
    exact_mod_cast this
  · intro h
    rw [h]
    simp

/-- A mint, a transfer and a self-transfer that finds too little money. -/
theorem conservation_mint_transfer :
    totalBalance 10 {1, 2} ((serialExecuteWithBalance
        [⟨.mint 1 5, 0, 0⟩, ⟨.transfer 1 2 7, 0, 0⟩, ⟨.transfer 1 1 9, 1, 0⟩] 10).getD Store.empty) =
      totalBalance 10 {1, 2} Store.empty + grantedTotal 10 Store.empty
        [⟨.mint 1 5, 0, 0⟩, ⟨.transfer 1 2 7, 0, 0⟩, ⟨.transfer 1 1 9, 1, 0⟩] := by
  exact (conservation_iff 10 _ {1, 2} _ (by decide) rfl).mpr
    ((selfGainTotal_eq_zero_iff rfl).mp (by decide))

/-- A self-transfer of `5` by an account that holds `10` leaves it with `15`. -/
theorem not_conservation :
    ¬ ∀ (funded : ℕ) (txns : List StablecoinTx) (accts : Finset ℕ) (st : Ledger),
      (∀ txn ∈ txns, ∀ a ∈ txn.accounts, a ∈ accts) →
      serialExecuteWithBalance txns funded = some st →
      totalBalance funded accts st =
        totalBalance funded accts Store.empty + grantedTotal funded Store.empty txns := by
  intro h
  have := h 10 [⟨.transfer 1 1 5, 0, 0⟩] {1} _ (by decide) rfl
  revert this
  decide

end StablecoinSystem
