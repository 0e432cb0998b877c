import StablecoinSystem.Ledger.Tx

/-!
`stablecoin.rs`, the reference executor: `serial_execute`,
`serial_execute_with_balance` and `serial_execute_counted`.

The loops of the two executors have the same body, here `applyTx`: the ledger
after one transaction and whether the transaction went through.  The simulated
crypto work has no effect on either and is left out.

* `serialFrom`: the run of a list of transactions from a ledger, with the flag
  of each;
* `serialExecuteCounted_eq`: the counter is the number of set flags.
-/

namespace StablecoinSystem

/-- One transaction of the reference executor: the new ledger and whether the
transaction succeeded, `none` if a `u64` operation overflows or underflows. -/
def applyTx (funded : ℕ) (st : Ledger) (txn : StablecoinTx) : Option (Ledger × Bool) :=
  match txn.txType with
  | .transfer sender receiver amount =>
      let senderBal := st.balance funded sender
      if amount ≤ senderBal then do
        let receiverBal := st.balance funded receiver
        let senderNonce := st.nonce sender
        let senderBal' ← subU64 senderBal amount
        let receiverBal' ← addU64 receiverBal amount
        let senderNonce' ← addU64 senderNonce 1
        return (((st.insert (.balance sender) senderBal').insert (.balance receiver)
          receiverBal').insert (.nonce sender) senderNonce', true)
      else return (st, false)
  | .mint target amount => do
      let bal ← addU64 (st.balance funded target) amount
      let supply ← addU64 st.supply amount
      let nonce ← addU64 (st.nonce 0) 1
      return (((st.insert (.balance target) bal).insert .totalSupply supply).insert (.nonce 0) nonce,
        true)
  | .burn source amount =>
      let bal := st.balance funded source
      if amount ≤ bal then do
        let bal' ← subU64 bal amount
        let supply ← subU64 st.supply amount
        let nonce ← addU64 (st.nonce 0) 1
        return (((st.insert (.balance source) bal').insert .totalSupply supply).insert (.nonce 0)
          nonce, true)
      else return (st, false)
  | .initBalance account amount => return (st.insert (.balance account) amount, true)

/-- The reference run from a ledger: the final ledger and the success flags. -/
def serialFrom (funded : ℕ) : Ledger → List StablecoinTx → Option (Ledger × List Bool)
  | st, [] => some (st, [])
  | st, txn :: rest => do
      let (st', ok) ← applyTx funded st txn
      let (final, oks) ← serialFrom funded st' rest
      return (final, ok :: oks)

/-- `serial_execute_with_balance`: the state left by the transactions. -/
def serialExecuteWithBalance (txns : List StablecoinTx) (funded : ℕ) : Option Ledger :=
  (serialFrom funded Store.empty txns).map Prod.fst

/-- `serial_execute`. -/
def serialExecute (txns : List StablecoinTx) : Option Ledger := serialExecuteWithBalance txns 0

/-- `ExecCounts`. -/
structure ExecCounts where
  total : ℕ
  successful : ℕ
  deriving DecidableEq, Repr

/-- The loop of `serial_execute_counted`. -/
def countedFrom (funded : ℕ) : Ledger → ExecCounts → List StablecoinTx →
    Option (Ledger × ExecCounts)
  | st, counts, [] => some (st, counts)
  | st, counts, txn :: rest => do
      let (st', success) ← applyTx funded st txn
      countedFrom funded st'
        (if success then { counts with successful := counts.successful + 1 } else counts) rest

/-- `serial_execute_counted`. -/
def serialExecuteCounted (txns : List StablecoinTx) (funded : ℕ) : Option (Ledger × ExecCounts) :=
  countedFrom funded Store.empty { total := txns.length, successful := 0 } txns

/-! ### What one transaction does -/

section Cases

variable {funded : ℕ} {st st' : Ledger} {ok : Bool} {txn : StablecoinTx}

/-- A transfer either moves the amount and bumps the sender's nonce, or finds too
little money and does nothing. -/
lemma applyTx_transfer {sender receiver amount : ℕ}
    (htx : txn.txType = .transfer sender receiver amount)
    (h : applyTx funded st txn = some (st', ok)) :
    (amount ≤ st.balance funded sender ∧ st.balance funded receiver + amount < 2 ^ 64 ∧
      st.nonce sender + 1 < 2 ^ 64 ∧ ok = true ∧
      st' = ((st.insert (.balance sender) (st.balance funded sender - amount)).insert
        (.balance receiver) (st.balance funded receiver + amount)).insert (.nonce sender)
          (st.nonce sender + 1)) ∨
    (st.balance funded sender < amount ∧ ok = false ∧ st' = st) := by
  simp only [applyTx, htx] at h
  split at h
  next hle =>
      simp only [Option.bind_eq_bind, Option.bind_eq_some_iff, subU64_eq_some, addU64_eq_some,
        Option.pure_def, Option.some.injEq, Prod.mk.injEq] at h
      obtain ⟨_, ⟨_, rfl⟩, _, ⟨hr, rfl⟩, _, ⟨hn, rfl⟩, rfl, rfl⟩ := h
      exact Or.inl ⟨hle, hr, hn, rfl, rfl⟩
  next hlt =>
      simp only [Option.pure_def, Option.some.injEq, Prod.mk.injEq] at h
      exact Or.inr ⟨by omega, h.2.symm, h.1.symm⟩

/-- A mint credits the target, the supply and the minter's nonce. -/
lemma applyTx_mint {target amount : ℕ} (htx : txn.txType = .mint target amount)
    (h : applyTx funded st txn = some (st', ok)) :
    st.balance funded target + amount < 2 ^ 64 ∧ st.supply + amount < 2 ^ 64 ∧
      st.nonce 0 + 1 < 2 ^ 64 ∧ ok = true ∧
      st' = ((st.insert (.balance target) (st.balance funded target + amount)).insert
        .totalSupply (st.supply + amount)).insert (.nonce 0) (st.nonce 0 + 1) := by
  simp only [applyTx, htx, Option.bind_eq_bind, Option.bind_eq_some_iff, addU64_eq_some,
    Option.pure_def, Option.some.injEq, Prod.mk.injEq] at h
  obtain ⟨_, ⟨hb, rfl⟩, _, ⟨hs, rfl⟩, _, ⟨hn, rfl⟩, rfl, rfl⟩ := h
  exact ⟨hb, hs, hn, rfl, rfl⟩

/-- A burn either debits the source and the supply, or finds too little money
and does nothing. -/
lemma applyTx_burn {source amount : ℕ} (htx : txn.txType = .burn source amount)
    (h : applyTx funded st txn = some (st', ok)) :
    (amount ≤ st.balance funded source ∧ amount ≤ st.supply ∧ st.nonce 0 + 1 < 2 ^ 64 ∧
      ok = true ∧
      st' = ((st.insert (.balance source) (st.balance funded source - amount)).insert
        .totalSupply (st.supply - amount)).insert (.nonce 0) (st.nonce 0 + 1)) ∨
    (st.balance funded source < amount ∧ ok = false ∧ st' = st) := by
  simp only [applyTx, htx] at h
  split at h
  next hle =>
      simp only [Option.bind_eq_bind, Option.bind_eq_some_iff, subU64_eq_some, addU64_eq_some,
        Option.pure_def, Option.some.injEq, Prod.mk.injEq] at h
      obtain ⟨_, ⟨_, rfl⟩, _, ⟨hs, rfl⟩, _, ⟨hn, rfl⟩, rfl, rfl⟩ := h
      exact Or.inl ⟨hle, hs, hn, rfl, rfl⟩
  next hlt =>
      simp only [Option.pure_def, Option.some.injEq, Prod.mk.injEq] at h
      exact Or.inr ⟨by omega, h.2.symm, h.1.symm⟩

/-- An initialisation overwrites the balance. -/
lemma applyTx_initBalance {account amount : ℕ} (htx : txn.txType = .initBalance account amount)
    (h : applyTx funded st txn = some (st', ok)) :
    ok = true ∧ st' = st.insert (.balance account) amount := by
  simp only [applyTx, htx, Option.pure_def, Option.some.injEq, Prod.mk.injEq] at h
  exact ⟨h.2.symm, h.1.symm⟩

end Cases

/-! ### Runs and their prefixes -/

section Runs

variable {funded : ℕ} {st st' : Ledger}

lemma serialFrom_cons {txn : StablecoinTx} {rest : List StablecoinTx} {oks : List Bool} :
    serialFrom funded st (txn :: rest) = some (st', oks) ↔
      ∃ st₁ ok oks', applyTx funded st txn = some (st₁, ok) ∧
        serialFrom funded st₁ rest = some (st', oks') ∧ oks = ok :: oks' := by
  rw [serialFrom]
  constructor
  · intro h
    simp only [Option.bind_eq_bind, Option.bind_eq_some_iff, Prod.exists, Option.pure_def,
      Option.some.injEq, Prod.mk.injEq] at h
    obtain ⟨st₁, ok, hstep, st₂, oks', hrest, rfl, rfl⟩ := h
    exact ⟨st₁, ok, oks', hstep, hrest, rfl⟩
  · rintro ⟨st₁, ok, oks', hstep, hrest, rfl⟩
    simp [hstep, hrest]

/-- Without the flags, the run is a loop over the transactions. -/
lemma serialFrom_map_fst (funded : ℕ) (st : Ledger) (txns : List StablecoinTx) :
    (serialFrom funded st txns).map Prod.fst =
      txns.foldlM (fun st txn => (applyTx funded st txn).map Prod.fst) st := by
  induction txns generalizing st with
  | nil => rfl
  | cons txn rest ih =>
      rw [serialFrom, List.foldlM_cons]
      cases applyTx funded st txn with
      | none => rfl
      | some r =>
          simp only [Option.bind_eq_bind, Option.bind_some, Option.map_some, ← ih r.1]
          cases serialFrom funded r.1 rest <;> rfl

/-- One more transaction. -/
lemma serialExecute_concat (txns : List StablecoinTx) (txn : StablecoinTx) (funded : ℕ) :
    serialExecuteWithBalance (txns ++ [txn]) funded =
      (serialExecuteWithBalance txns funded).bind fun st =>
        (applyTx funded st txn).map Prod.fst := by
  rw [serialExecuteWithBalance, serialExecuteWithBalance, serialFrom_map_fst, serialFrom_map_fst,
    List.foldlM_append]
  refine Option.bind_congr fun st _ => ?_
  rw [List.foldlM_cons]
  cases applyTx funded st txn <;> rfl

/-- The counter of `serial_execute_counted` counts the set flags. -/
lemma countedFrom_eq {txns : List StablecoinTx} {oks : List Bool} (counts : ExecCounts)
    (h : serialFrom funded st txns = some (st', oks)) :
    countedFrom funded st counts txns =
      some (st', { counts with successful := counts.successful + oks.count true }) := by
  induction txns generalizing st counts oks with
  | nil =>
      simp only [serialFrom, Option.some.injEq, Prod.mk.injEq] at h
      obtain ⟨rfl, rfl⟩ := h
      simp [countedFrom]
  | cons txn rest ih =>
      obtain ⟨st₁, ok, oks', hstep, hrest, rfl⟩ := serialFrom_cons.mp h
      rw [countedFrom]
      simp only [hstep, Option.bind_eq_bind, Option.bind_some, ih _ hrest]
      cases ok
      · simp
      · simp only [if_true, List.count_cons_self, Option.some.injEq, Prod.mk.injEq, true_and,
          ExecCounts.mk.injEq]
        omega

/-- `serial_execute_counted` agrees with the reference run, and its counter is
the number of transactions that went through. -/
lemma serialExecuteCounted_eq {txns : List StablecoinTx} {oks : List Bool}
    (h : serialFrom funded Store.empty txns = some (st', oks)) :
    serialExecuteCounted txns funded =
      some (st', { total := txns.length, successful := oks.count true }) := by
  rw [serialExecuteCounted, countedFrom_eq _ h]
  simp

end Runs

end StablecoinSystem
