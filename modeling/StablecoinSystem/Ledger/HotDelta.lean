import StablecoinSystem.Leap.Task
import StablecoinSystem.Ledger.Tx

/-!
`hot_delta.rs` and the executor of `stablecoin.rs`.

The balance of a hot account is kept in parts: the balance key and one delta
shard for each credit's hash class.  `executeTransaction` follows the source
branch by branch; its reads go through `Body.read`, and a `u64` operation that
overflows or underflows is a fault.

* `HotDeltaManager`: the shard map, with every shard count at least one;
* `executeTransaction`, `stablecoinTask`: the executor and its `ExecutorTask`.
-/

namespace StablecoinSystem

/-- `HotDeltaManager`: the number of shards of each hot account.  The thresholds
and the receiver count only serve to choose the map. -/
structure HotDeltaManager where
  shardCounts : ℕ → Option ℕ
  shardCounts_pos : ∀ account p, shardCounts account = some p → 1 ≤ p

namespace HotDeltaManager

/-- `HotDeltaManager::shard_count`: `1` for an account that is not sharded. -/
def shardCount (mgr : HotDeltaManager) (account : ℕ) : ℕ := (mgr.shardCounts account).getD 1

/-- `HotDeltaManager::is_hot`. -/
def isHot (mgr : HotDeltaManager) (account : ℕ) : Bool := (mgr.shardCounts account).isSome

/-- `HotDeltaManager::delta_key`; `hash` stands for the default hasher. -/
def deltaKey (hash : ℕ → ℕ) (account txHash shardCount : ℕ) : StateKey :=
  .delta account (hash txHash % shardCount)

lemma shardCount_pos (mgr : HotDeltaManager) (account : ℕ) : 1 ≤ mgr.shardCount account := by
  rw [shardCount]
  cases h : mgr.shardCounts account with
  | none => simp
  | some p => simpa using mgr.shardCounts_pos account p h

end HotDeltaManager

/-- `StablecoinOutput`. -/
structure StablecoinOutput where
  writes : List (StateKey × ℕ)
  deriving DecidableEq, Repr

/-- `StablecoinExecutor`, less the amount of simulated work. -/
structure StablecoinExecutor where
  hotDelta : Option HotDeltaManager
  fundedBalance : ℕ

/-- A body of the stablecoin executor. -/
abbrev LedgerBody : Type → Type := Body StateKey ℕ

/-- A checked `u64` operation inside a body. -/
def checked (r : Option ℕ) : LedgerBody ℕ :=
  match r with
  | some v => .ret v
  | none => .fault

/-- `read_u64`. -/
def readU64 (key : StateKey) : LedgerBody ℕ :=
  .read key fun r => match r with
    | .ok (some v) => .ret v
    | .ok none => .ret 0
    | .err => .ret 0

/-- `read_balance`. -/
def readBalance (account funded : ℕ) : LedgerBody ℕ :=
  .read (.balance account) fun r => match r with
    | .ok (some v) => .ret v
    | .ok none => .ret funded
    | .err => .ret funded

/-- The loop of `read_balance_with_deltas` over the shards still to be read. -/
def addShards (account : ℕ) : List ℕ → ℕ → LedgerBody ℕ
  | [], total => .ret total
  | s :: rest, total => do
      let d ← readU64 (.delta account s)
      let total' ← checked (addU64 total d)
      addShards account rest total'

/-- `read_balance_with_deltas`. -/
def readBalanceWithDeltas (account : ℕ) (mgr : HotDeltaManager) (funded : ℕ) : LedgerBody ℕ := do
  let base ← readBalance account funded
  if mgr.isHot account then
    addShards account (List.range (mgr.shardCount account)) base
  else
    return base

/-- The writes that reset the shards of an account. -/
def shardResets (mgr : HotDeltaManager) (account : ℕ) : List (StateKey × ℕ) :=
  (List.range (mgr.shardCount account)).map fun s => (.delta account s, 0)

namespace StablecoinExecutor

variable (hash : ℕ → ℕ) (ex : StablecoinExecutor)

/-- The balance a transfer debits, and the resets that go with it. -/
def senderBalance (sender : ℕ) : LedgerBody (ℕ × List (StateKey × ℕ)) :=
  match ex.hotDelta with
  | some mgr =>
      if mgr.isHot sender then do
        let aggregated ← readBalanceWithDeltas sender mgr ex.fundedBalance
        return (aggregated, shardResets mgr sender)
      else do
        let bal ← readBalance sender ex.fundedBalance
        return (bal, [])
  | none => do
      let bal ← readBalance sender ex.fundedBalance
      return (bal, [])

/-- The write that credits an account: its delta shard if it is hot, its balance
otherwise. -/
def credit (account amount txHash : ℕ) : LedgerBody (StateKey × ℕ) :=
  match ex.hotDelta with
  | some mgr =>
      if mgr.isHot account then do
        let key := HotDeltaManager.deltaKey hash account txHash (mgr.shardCount account)
        let oldDelta ← readU64 key
        let newDelta ← checked (addU64 oldDelta amount)
        return (key, newDelta)
      else do
        let bal ← readBalance account ex.fundedBalance
        let bal' ← checked (addU64 bal amount)
        return (.balance account, bal')
  | none => do
      let bal ← readBalance account ex.fundedBalance
      let bal' ← checked (addU64 bal amount)
      return (.balance account, bal')

/-- The shard resets of a burn or an initialisation: those of a hot account. -/
def resetsOf (account : ℕ) : List (StateKey × ℕ) :=
  match ex.hotDelta with
  | some mgr => if mgr.isHot account then shardResets mgr account else []
  | none => []

/-- The balance a burn debits. -/
def burnBalance (source : ℕ) : LedgerBody ℕ :=
  match ex.hotDelta with
  | some mgr => readBalanceWithDeltas source mgr ex.fundedBalance
  | none => readBalance source ex.fundedBalance

/-- `StablecoinExecutor::execute_transaction`. -/
def executeTransaction (txn : StablecoinTx) :
    LedgerBody (ExecutionStatus StablecoinOutput String) :=
  match txn.txType with
  | .transfer sender receiver amount => do
      let (senderBal, resets) ← ex.senderBalance sender
      if senderBal < amount then
        return .success ⟨[]⟩
      else do
        let senderNonce ← readU64 (.nonce sender)
        let creditWrite ← ex.credit hash receiver amount txn.txHash
        let senderBal' ← checked (subU64 senderBal amount)
        let senderNonce' ← checked (addU64 senderNonce 1)
        return .success ⟨[(.balance sender, senderBal'), creditWrite,
          (.nonce sender, senderNonce')] ++ resets⟩
  | .mint target amount => do
      let supply ← readU64 .totalSupply
      let minterNonce ← readU64 (.nonce 0)
      let creditWrite ← ex.credit hash target amount txn.txHash
      let supply' ← checked (addU64 supply amount)
      let minterNonce' ← checked (addU64 minterNonce 1)
      return .success ⟨[creditWrite, (.totalSupply, supply'), (.nonce 0, minterNonce')]⟩
  | .burn source amount => do
      let bal ← ex.burnBalance source
      if bal < amount then
        return .success ⟨[]⟩
      else do
        let supply ← readU64 .totalSupply
        let burnerNonce ← readU64 (.nonce 0)
        let bal' ← checked (subU64 bal amount)
        let supply' ← checked (subU64 supply amount)
        let burnerNonce' ← checked (addU64 burnerNonce 1)
        return .success ⟨[(.balance source, bal'), (.totalSupply, supply'),
          (.nonce 0, burnerNonce')] ++ ex.resetsOf source⟩
  | .initBalance account amount =>
      return .success ⟨(.balance account, amount) :: ex.resetsOf account⟩

/-- The executor as an `ExecutorTask`. -/
def stablecoinTask : ExecutorTask StablecoinTx StateKey ℕ StablecoinOutput String where
  executeTransaction := ex.executeTransaction hash
  getWrites := StablecoinOutput.writes
  skipOutput := ⟨[]⟩

end StablecoinExecutor

/-! ### Evaluating the readers -/

section Eval

variable (st : Ledger)

@[simp] lemma eval_checked (r : Option ℕ) : (checked r).eval st = r := by
  cases r <;> rfl

@[simp] lemma eval_readU64 (key : StateKey) : (readU64 key).eval st = some ((st key).getD 0) := by
  rw [readU64, Body.eval_read]
  cases st key <;> rfl

@[simp] lemma eval_readBalance (account funded : ℕ) :
    (readBalance account funded).eval st = some (st.balance funded account) := by
  rw [readBalance, Body.eval_read, Ledger.balance]
  cases st (.balance account) <;> rfl

/-- The value of a list of shards. -/
def shardSum (account : ℕ) (shards : List ℕ) : ℕ :=
  (shards.map fun s => (st (.delta account s)).getD 0).sum

/-- The aggregation loop adds up the shards, as long as the total fits. -/
lemma eval_addShards {account : ℕ} {shards : List ℕ} {total : ℕ}
    (h : total + shardSum st account shards < 2 ^ 64) :
    (addShards account shards total).eval st = some (total + shardSum st account shards) := by
  induction shards generalizing total with
  | nil => simp [addShards, shardSum]
  | cons s rest ih =>
      simp only [shardSum, List.map_cons, List.sum_cons] at h ih ⊢
      have hadd : addU64 total ((st (.delta account s)).getD 0) =
          some (total + (st (.delta account s)).getD 0) := addU64_of_lt (by omega)
      simp only [addShards, Body.eval_bind, eval_readU64, Option.bind_some, eval_checked, hadd]
      rw [ih (by omega), Nat.add_assoc]

end Eval

end StablecoinSystem
