import StablecoinSystem.Leap.DataLayer
import StablecoinSystem.Ledger.HotDelta

/-!
The keys a transaction writes.

`MVHashMap::write` asserts that an incarnation writes each key once. The writes
of `execute_transaction` are put together from the sender's entry, the credit of
the receiver, a nonce and the resets of the debited account's shards. These are
different keys unless the account that is debited is also credited: a transfer
of an account to itself writes its balance twice, or its delta shard and the
reset of that shard.

* `returns_senderBalance`, `returns_credit`: what the parts are, whatever the
  view answers;
* `executeTransaction_writes_nodup_iff`: the keys are always different exactly
  if the transaction is no self-transfer;
* `distinctWrites_of_no_selfTransfer`: so the assumption of the data layer holds
  of a block without self-transfers.
-/

namespace StablecoinSystem

variable (hash : ℕ → ℕ) (ex : StablecoinExecutor)

/-! ### The parts of a write set -/

lemma map_fst_shardResets (mgr : HotDeltaManager) (account : ℕ) :
    (shardResets mgr account).map Prod.fst =
      (List.range (mgr.shardCount account)).map (StateKey.delta account) := by
  rw [shardResets, List.map_map]
  rfl

namespace StablecoinExecutor

/-- The resets are the shards of the account, each once. -/
lemma resetsOf_keys (account : ℕ) :
    ((ex.resetsOf account).map Prod.fst).Nodup ∧
      ∀ key ∈ (ex.resetsOf account).map Prod.fst, ∃ shard, key = .delta account shard := by
  rw [resetsOf]
  split
  · rename_i mgr _
    split
    · rw [map_fst_shardResets]
      refine ⟨List.nodup_range.map fun s s' h => by simpa using h, ?_⟩
      intro key hkey
      obtain ⟨s, -, rfl⟩ := List.mem_map.mp hkey
      exact ⟨s, rfl⟩
    · simp
  · simp

/-- The resets of an account after keys that are none of its shards. -/
lemma nodup_append_resetsOf {keys : List StateKey} {account : ℕ} (hkeys : keys.Nodup)
    (hshard : ∀ shard, StateKey.delta account shard ∉ keys) :
    (keys ++ (ex.resetsOf account).map Prod.fst).Nodup := by
  obtain ⟨hnodup, hdelta⟩ := ex.resetsOf_keys account
  refine List.nodup_append'.mpr ⟨hkeys, hnodup, fun key hkey hreset => ?_⟩
  obtain ⟨shard, rfl⟩ := hdelta key hreset
  exact hshard shard hkey

/-- A transfer resets what its sender's balance was collected from. -/
lemma returns_senderBalance (sender : ℕ) :
    (ex.senderBalance sender).Returns fun p => p.2 = ex.resetsOf sender := by
  rw [senderBalance, resetsOf]
  split
  · split
    · exact (Body.returns_true _).bind fun _ _ => rfl
    · exact (Body.returns_true _).bind fun _ _ => rfl
  · exact (Body.returns_true _).bind fun _ _ => rfl

/-- A credit writes the balance of the account or one of its shards. -/
lemma returns_credit (account amount txHash : ℕ) :
    (ex.credit hash account amount txHash).Returns fun w =>
      w.1 = .balance account ∨ ∃ shard, w.1 = .delta account shard := by
  have hcold : (do
      let bal ← readBalance account ex.fundedBalance
      let bal' ← checked (addU64 bal amount)
      return (StateKey.balance account, bal') : LedgerBody _).Returns fun w =>
        w.1 = .balance account ∨ ∃ shard, w.1 = .delta account shard :=
    (Body.returns_true _).bind fun _ _ => (Body.returns_true _).bind fun _ _ => .inl rfl
  rw [credit]
  split
  · split
    · exact (Body.returns_true _).bind fun _ _ => (Body.returns_true _).bind fun _ _ =>
        .inr ⟨_, rfl⟩
    · exact hcold
  · exact hcold

/-! ### The whole write set -/

/-- The keys that a status makes `apply_writes` write. -/
def writtenKeys (status : ExecutionStatus StablecoinOutput String) : List StateKey :=
  ((ex.stablecoinTask hash).writesOf status).map Prod.fst

/-- A transaction that debits and credits different accounts writes no key
twice, whatever the view answers. -/
lemma returns_nodup {txn : StablecoinTx} (hself : ¬txn.IsSelfTransfer) :
    (ex.executeTransaction hash txn).Returns fun status =>
      (ex.writtenKeys hash status).Nodup := by
  rw [executeTransaction]
  split
  next sender receiver amount htx =>
      have hne : sender ≠ receiver := by
        rintro rfl
        exact hself ⟨sender, amount, htx⟩
      refine (ex.returns_senderBalance sender).bind fun ⟨senderBal, resets⟩ hresets => ?_
      obtain rfl : resets = ex.resetsOf sender := hresets
      dsimp only
      split
      · exact List.nodup_nil
      · refine (Body.returns_true _).bind fun nonce _ => ?_
        refine (ex.returns_credit hash receiver amount txn.txHash).bind fun w hw => ?_
        refine (Body.returns_true _).bind fun _ _ => (Body.returns_true _).bind fun _ _ => ?_
        show (([_, w, _] ++ ex.resetsOf sender).map Prod.fst).Nodup
        rw [List.map_append]
        -- The receiver's write is its balance or one of its shards.
        rcases hw with hw | ⟨shard, hw⟩
        · exact ex.nodup_append_resetsOf (by simp [hw, hne]) (by simp [hw])
        · exact ex.nodup_append_resetsOf (by simp [hw]) (by simp [hw, hne])
  next target amount htx =>
      refine (Body.returns_true _).bind fun _ _ => (Body.returns_true _).bind fun _ _ => ?_
      refine (ex.returns_credit hash target amount txn.txHash).bind fun w hw => ?_
      refine (Body.returns_true _).bind fun _ _ => (Body.returns_true _).bind fun _ _ => ?_
      show ([w, _, _].map Prod.fst).Nodup
      rcases hw with hw | ⟨shard, hw⟩ <;> simp [hw]
  next source amount htx =>
      refine (Body.returns_true _).bind fun bal _ => ?_
      split
      · exact List.nodup_nil
      · refine (Body.returns_true _).bind fun _ _ => (Body.returns_true _).bind fun _ _ => ?_
        refine (Body.returns_true _).bind fun _ _ => (Body.returns_true _).bind fun _ _ => ?_
        refine (Body.returns_true _).bind fun _ _ => ?_
        show (([_, _, _] ++ ex.resetsOf source).map Prod.fst).Nodup
        rw [List.map_append]
        exact ex.nodup_append_resetsOf (by simp) (by simp)
  next account amount htx =>
      show (([_] ++ ex.resetsOf account).map Prod.fst).Nodup
      rw [List.map_append]
      exact ex.nodup_append_resetsOf (by simp) (by simp)

/-! ### Self-transfers -/

/-- A transfer of a hot account to itself that finds its amount in the balance
key writes a delta shard and resets it. -/
lemma eval_selfTransfer_hot {mgr : HotDeltaManager} (hmgr : ex.hotDelta = some mgr)
    {txn : StablecoinTx} {account amount : ℕ} (htx : txn.txType = .transfer account account amount)
    (hamount : amount < 2 ^ 64) (hhot : mgr.isHot account = true) :
    (ex.executeTransaction hash txn).eval (Store.empty.insert (.balance account) amount) =
      some (.success ⟨[(.balance account, 0),
        (HotDeltaManager.deltaKey hash account txn.txHash (mgr.shardCount account), amount),
        (.nonce account, 1)] ++ shardResets mgr account⟩) := by
  have hshards : shardSum (Store.empty.insert (.balance account) amount) account
      (List.range (mgr.shardCount account)) = 0 := by
    simp [shardSum]
  simp only [executeTransaction, htx, senderBalance, credit, hmgr, hhot, if_true,
    readBalanceWithDeltas, Body.eval_bind, eval_readBalance, Option.bind_some, Ledger.balance,
    Store.insert_self, Option.getD_some]
  rw [eval_addShards _ (by omega), hshards]
  simp [HotDeltaManager.deltaKey, addU64_zero_left hamount,
    addU64_zero_one, subU64_self]

/-- Without shards both accounts of a transfer are read and written by their
balance keys. -/
lemma senderBalance_cold {account : ℕ} (hcold : ∀ mgr, ex.hotDelta = some mgr →
    mgr.isHot account = false) : ex.senderBalance account = (do
      let bal ← readBalance account ex.fundedBalance
      return (bal, [])) := by
  rw [senderBalance]
  split
  · rename_i mgr hmgr
    rw [hcold mgr hmgr, if_neg Bool.false_ne_true]
  · rfl

lemma credit_cold {account amount txHash : ℕ} (hcold : ∀ mgr, ex.hotDelta = some mgr →
    mgr.isHot account = false) : ex.credit hash account amount txHash = (do
      let bal ← readBalance account ex.fundedBalance
      let bal' ← checked (addU64 bal amount)
      return (.balance account, bal')) := by
  rw [credit]
  split
  · rename_i mgr hmgr
    rw [hcold mgr hmgr, if_neg Bool.false_ne_true]
  · rfl

/-- A self-transfer writes a key twice for some answers of the view: the balance
of a cold account, a delta shard of a hot one. -/
lemma not_returns_nodup {txn : StablecoinTx} (hself : txn.IsSelfTransfer)
    (hamount : txn.amount < 2 ^ 64) :
    ¬(ex.executeTransaction hash txn).Returns fun status =>
      (ex.writtenKeys hash status).Nodup := by
  intro hreturns
  obtain ⟨account, amount, htx⟩ := hself
  simp only [StablecoinTx.amount, htx] at hamount
  by_cases hhot : ∃ mgr, ex.hotDelta = some mgr ∧ mgr.isHot account = true
  · obtain ⟨mgr, hmgr, hhot⟩ := hhot
    have hnodup := hreturns.eval (ex.eval_selfTransfer_hot hash hmgr htx hamount hhot)
    change (([_, _, _] ++ shardResets mgr account).map Prod.fst).Nodup at hnodup
    rw [List.map_append, map_fst_shardResets] at hnodup
    have hmem : HotDeltaManager.deltaKey hash account txn.txHash (mgr.shardCount account) ∈
        (List.range (mgr.shardCount account)).map (StateKey.delta account) := by
      refine List.mem_map.mpr ⟨_, List.mem_range.mpr ?_, rfl⟩
      exact Nat.mod_lt _ (mgr.shardCount_pos account)
    exact List.disjoint_of_nodup_append hnodup (by simp) hmem
  · have hcold (mgr : HotDeltaManager) (hmgr : ex.hotDelta = some mgr) :
        mgr.isHot account = false :=
      Bool.eq_false_iff.mpr fun hmgr' => hhot ⟨mgr, hmgr, hmgr'⟩
    -- the balance is read once as the sender's and once as the receiver's; the view may answer
    -- with the amount and with nothing
    simp only [executeTransaction, htx, ex.senderBalance_cold hcold, ex.credit_cold hash hcold,
      readBalance, readU64, Body.read_bind, Body.Returns] at hreturns
    have hnodup := hreturns (.ok (some amount))
    simp only [Body.ret_bind, Body.pure_eq, Nat.lt_irrefl, if_false, Body.Returns] at hnodup
    have hnodup := hnodup (.ok none) (.ok (some 0))
    simp only [Body.ret_bind, addU64_zero_left hamount, subU64_self, checked, addU64_zero_one,
      Body.Returns] at hnodup
    simp [writtenKeys, ExecutorTask.writesOf, stablecoinTask] at hnodup

/-- **A write set is duplicate-free whatever the view answers, exactly if the
transaction is no transfer of an account to itself.** -/
theorem executeTransaction_writes_nodup_iff (txn : StablecoinTx) (hamount : txn.amount < 2 ^ 64) :
    ((ex.executeTransaction hash txn).Returns fun status =>
      (ex.writtenKeys hash status).Nodup) ↔ ¬txn.IsSelfTransfer :=
  ⟨fun hreturns hself => ex.not_returns_nodup hash hself hamount hreturns,
    ex.returns_nodup hash⟩

/-- A transfer between two accounts. -/
theorem writes_nodup_transfer :
    (executeTransaction id ⟨none, 10⟩ ⟨.transfer 1 2 5, 0, 0⟩).Returns fun status =>
      (writtenKeys id ⟨none, 10⟩ status).Nodup :=
  (executeTransaction_writes_nodup_iff id ⟨none, 10⟩ ⟨.transfer 1 2 5, 0, 0⟩ (by decide)).mpr
    (by rintro ⟨account, amount, htx⟩; cases htx)

/-- An account that holds `10` and transfers `5` to itself writes its balance
twice. -/
theorem not_writes_nodup :
    ¬∀ (hash : ℕ → ℕ) (ex : StablecoinExecutor) (txn : StablecoinTx),
      (ex.executeTransaction hash txn).Returns fun status => (ex.writtenKeys hash status).Nodup := by
  intro h
  have heval : (executeTransaction id ⟨none, 10⟩ ⟨.transfer 1 1 5, 0, 0⟩).eval Store.empty =
      some (.success ⟨[(.balance 1, 5), (.balance 1, 15), (.nonce 1, 1)]⟩) := rfl
  have hnodup := (h id ⟨none, 10⟩ ⟨.transfer 1 1 5, 0, 0⟩).eval heval
  revert hnodup
  decide

end StablecoinExecutor

end StablecoinSystem
