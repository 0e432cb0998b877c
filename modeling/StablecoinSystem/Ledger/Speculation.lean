import StablecoinSystem.Leap.Eager
import StablecoinSystem.Ledger.HotDelta

/-!
Overflow and underflow under speculation.

An incarnation of a stablecoin transaction may see the balance of one
transaction and the supply from before it, or a value that a transaction before
it has not lowered yet. The guards of `execute_transaction` are written for
consistent states: a burn that finds its amount in the balance subtracts it from
the supply, whatever supply it has read.

The ceilings of a block are a bound on what speculation can see: the block is
executed in order on values that only rise, since an incarnation sees the value
of an earlier transaction until a later one has written. If no addition
overflows on the ceilings, and no burn finds its amount in the ceiling of its
account, no incarnation faults in any interleaving.

The condition on burns is not far from necessary. The supply that a burn
subtracts from is 0 until a mint before it has written, so it faults as soon as
it finds its amount first: on enough workers every burn of a positive amount up
to the funded balance does (`eager_burn_underflows`), and a burn of more may
between the two writes of a mint (`torn_burn_underflows`), even if the block in
order does not.

* `Ceilings.raise`, `ceilings`: the ceilings of a block;
* `dominated_executeTransaction`: the executor is monotone in what it reads;
* `ceilings_envelope`: so the ceilings are an envelope of the block;
* `eval_burn_empty`: a burn before the first mint.
-/

namespace StablecoinSystem

open Body

/-! ### Ceilings -/

/-- The highest value that speculation may find at each key. -/
abbrev Ceilings : Type := StateKey → ℕ

namespace Ceilings

/-- What the readers return for a key that was never written. -/
def initial (funded : ℕ) : Ceilings
  | .balance _ => funded
  | _ => 0

/-- The ledger that holds the ceilings. -/
def store (c : Ceilings) : Ledger := fun key => some (c key)

/-- The ceilings once the writes may be seen. They never fall. -/
def raise : Ceilings → List (StateKey × ℕ) → Ceilings
  | c, [] => c
  | c, write :: writes => raise (Function.update c write.1 (max (c write.1) write.2)) writes

lemma le_raise (c : Ceilings) (writes : List (StateKey × ℕ)) (key : StateKey) :
    c key ≤ c.raise writes key := by
  induction writes generalizing c with
  | nil => exact Nat.le_refl _
  | cons write writes ih =>
      refine Nat.le_trans ?_ (ih _)
      by_cases hkey : key = write.1
      · rw [hkey, Function.update_self]
        exact Nat.le_max_left _ _
      · rw [Function.update_of_ne hkey]

lemma le_raise_of_mem (c : Ceilings) {writes : List (StateKey × ℕ)} {write : StateKey × ℕ}
    (hmem : write ∈ writes) : write.2 ≤ c.raise writes write.1 := by
  induction writes generalizing c with
  | nil => cases hmem
  | cons write' writes ih =>
      rcases List.mem_cons.mp hmem with rfl | hmem
      · refine Nat.le_trans ?_ (le_raise _ writes _)
        rw [Function.update_self]
        exact Nat.le_max_right _ _
      · exact ih _ hmem

end Ceilings

namespace StablecoinExecutor

variable (hash : ℕ → ℕ) (ex : StablecoinExecutor)

/-- A burn never finds a positive amount in the account it is to be taken from. -/
def neverBurns (c : Ceilings) (txn : StablecoinTx) : Bool :=
  match txn.txType with
  | .burn source amount =>
      amount = 0 ||
        match (ex.burnBalance source).eval c.store with
        | some bal => bal < amount
        | none => false
  | _ => true

/-- The ceilings after a transaction. `none` if the transaction overflows on the
ceilings, or is a burn that may find its amount. -/
def raiseCeilings (c : Ceilings) (txn : StablecoinTx) : Option Ceilings :=
  if ex.neverBurns c txn then
    ((ex.executeTransaction hash txn).eval c.store).map fun status =>
      c.raise ((ex.stablecoinTask hash).writesOf status)
  else none

/-- The ceilings of a block. -/
def ceilings (block : List StablecoinTx) : Option Ceilings :=
  block.foldlM (ex.raiseCeilings hash) (Ceilings.initial ex.fundedBalance)

end StablecoinExecutor

/-! ### The readers are monotone -/

section Readers

variable {c : Ceilings}

/-- A value that the ceilings allow. -/
def Ceilings.Allows (c : Ceilings) (key : StateKey) (v : ℕ) : Prop := v ≤ c key

lemma dominated_readU64 (key : StateKey) :
    Dominated c.Allows c.store (· ≤ ·) (readU64 key) (readU64 key) := by
  intro v' hv'
  rw [eval_readU64] at hv'
  obtain rfl := Option.some.inj hv'
  intro r hr
  match r with
  | .ok (some v) => exact hr v rfl
  | .ok none => exact Nat.zero_le _
  | .err => exact Nat.zero_le _

/-- The default of a balance is below its ceiling. -/
lemma dominated_readBalance {account funded : ℕ} (hfunded : funded ≤ c (.balance account)) :
    Dominated c.Allows c.store (· ≤ ·) (readBalance account funded)
      (readBalance account funded) := by
  intro v' hv'
  rw [eval_readBalance] at hv'
  obtain rfl := Option.some.inj hv'
  intro r hr
  match r with
  | .ok (some v) => exact hr v rfl
  | .ok none => exact hfunded
  | .err => exact hfunded

lemma dominated_add {a a' b b' : ℕ} (ha : a ≤ a') (hb : b ≤ b') :
    Dominated c.Allows c.store (· ≤ ·) (checked (addU64 a b)) (checked (addU64 a' b')) := by
  intro x hx
  rw [eval_checked] at hx
  obtain ⟨hlt, rfl⟩ := addU64_eq_some.mp hx
  rw [addU64_of_lt (by omega)]
  exact Nat.add_le_add ha hb

lemma dominated_sub {a a' b : ℕ} (ha : a ≤ a') (hb : b ≤ a) :
    Dominated c.Allows c.store (· ≤ ·) (checked (subU64 a b)) (checked (subU64 a' b)) := by
  intro x hx
  rw [eval_checked] at hx
  obtain ⟨-, rfl⟩ := subU64_eq_some.mp hx
  rw [subU64_of_le hb]
  exact Nat.sub_le_sub_right ha b

lemma dominated_addShards {account total total' : ℕ} (shards : List ℕ) (h : total ≤ total') :
    Dominated c.Allows c.store (· ≤ ·) (addShards account shards total)
      (addShards account shards total') := by
  induction shards generalizing total total' with
  | nil => exact .ret h
  | cons shard rest ih =>
      refine .bind (dominated_readU64 _) fun d d' _ hd => ?_
      exact .bind (dominated_add h hd) fun sum sum' _ hsum => ih hsum

lemma dominated_readBalanceWithDeltas {account funded : ℕ} (mgr : HotDeltaManager)
    (hfunded : funded ≤ c (.balance account)) :
    Dominated c.Allows c.store (· ≤ ·) (readBalanceWithDeltas account mgr funded)
      (readBalanceWithDeltas account mgr funded) := by
  refine .bind (dominated_readBalance hfunded) fun base base' _ hbase => ?_
  split
  · exact dominated_addShards _ hbase
  · exact .ret hbase

end Readers

/-! ### The executor is monotone -/

namespace StablecoinExecutor

variable {hash : ℕ → ℕ} {ex : StablecoinExecutor} {c : Ceilings}

/-- The ceilings are not below the funded balance. -/
def FundedBelow (ex : StablecoinExecutor) (c : Ceilings) : Prop :=
  ∀ account, ex.fundedBalance ≤ c (.balance account)

lemma dominated_senderBalance (hfunded : ex.FundedBelow c) (sender : ℕ) :
    Dominated c.Allows c.store (fun x x' => x.1 ≤ x'.1 ∧ x.2 = x'.2) (ex.senderBalance sender)
      (ex.senderBalance sender) := by
  have hbalance : Dominated c.Allows c.store (fun x x' => x.1 ≤ x'.1 ∧ x.2 = x'.2)
      (do
        let bal ← readBalance sender ex.fundedBalance
        return (bal, ([] : List (StateKey × ℕ))))
      (do
        let bal ← readBalance sender ex.fundedBalance
        return (bal, [])) :=
    .bind (dominated_readBalance (hfunded sender)) fun bal bal' _ hbal => .ret ⟨hbal, rfl⟩
  rw [senderBalance]
  split
  · rename_i mgr _
    split
    · exact .bind (dominated_readBalanceWithDeltas mgr (hfunded sender))
        fun bal bal' _ hbal => .ret ⟨hbal, rfl⟩
    · exact hbalance
  · exact hbalance

lemma dominated_credit (hfunded : ex.FundedBelow c) (account amount txHash : ℕ) :
    Dominated c.Allows c.store (fun x x' => x.1 = x'.1 ∧ x.2 ≤ x'.2)
      (ex.credit hash account amount txHash) (ex.credit hash account amount txHash) := by
  have hbalance : Dominated c.Allows c.store (fun x x' => x.1 = x'.1 ∧ x.2 ≤ x'.2)
      (do
        let bal ← readBalance account ex.fundedBalance
        let bal' ← checked (addU64 bal amount)
        return (StateKey.balance account, bal'))
      (do
        let bal ← readBalance account ex.fundedBalance
        let bal' ← checked (addU64 bal amount)
        return (StateKey.balance account, bal')) := by
    refine .bind (dominated_readBalance (hfunded account)) fun bal bal' _ hbal => ?_
    exact .bind (dominated_add hbal (Nat.le_refl _)) fun sum sum' _ hsum => .ret ⟨rfl, hsum⟩
  rw [credit]
  split
  · split
    · refine .bind (dominated_readU64 _) fun old old' _ hold => ?_
      exact .bind (dominated_add hold (Nat.le_refl _)) fun sum sum' _ hsum => .ret ⟨rfl, hsum⟩
    · exact hbalance
  · exact hbalance

lemma dominated_burnBalance (hfunded : ex.FundedBelow c) (source : ℕ) :
    Dominated c.Allows c.store (· ≤ ·) (ex.burnBalance source) (ex.burnBalance source) := by
  rw [burnBalance]
  split
  · exact dominated_readBalanceWithDeltas _ (hfunded source)
  · exact dominated_readBalance (hfunded source)

/-- Every write is to a key of the other list, and not above the value there. -/
def Covered (writes writes' : List (StateKey × ℕ)) : Prop :=
  ∀ write ∈ writes, ∃ write' ∈ writes', write'.1 = write.1 ∧ write.2 ≤ write'.2

lemma covered_nil (writes : List (StateKey × ℕ)) : Covered [] writes := by
  intro write hmem
  cases hmem

lemma covered_refl (writes : List (StateKey × ℕ)) : Covered writes writes :=
  fun write hmem => ⟨write, hmem, rfl, Nat.le_refl _⟩

lemma Covered.cons {write write' : StateKey × ℕ} {writes writes' : List (StateKey × ℕ)}
    (hkey : write.1 = write'.1) (hle : write.2 ≤ write'.2) (h : Covered writes writes') :
    Covered (write :: writes) (write' :: writes') := by
  intro w hmem
  rcases List.mem_cons.mp hmem with rfl | hmem
  · exact ⟨write', List.mem_cons_self, hkey.symm, hle⟩
  · obtain ⟨w', hmem', hw⟩ := h w hmem
    exact ⟨w', List.mem_cons_of_mem _ hmem', hw⟩

/-- The writes of one status are covered by those of another. -/
def StatusCovered (hash : ℕ → ℕ) (ex : StablecoinExecutor)
    (status status' : ExecutionStatus StablecoinOutput String) : Prop :=
  Covered ((ex.stablecoinTask hash).writesOf status) ((ex.stablecoinTask hash).writesOf status')

lemma statusCovered_nil (status : ExecutionStatus StablecoinOutput String) :
    ex.StatusCovered hash (.success ⟨[]⟩) status := covered_nil _

lemma dominated_transfer (hfunded : ex.FundedBelow c) {txn : StablecoinTx}
    {sender receiver amount : ℕ} (htype : txn.txType = .transfer sender receiver amount) :
    Dominated c.Allows c.store (ex.StatusCovered hash) (ex.executeTransaction hash txn)
      (ex.executeTransaction hash txn) := by
  simp only [executeTransaction, htype]
  refine .bind (dominated_senderBalance hfunded sender) ?_
  rintro ⟨bal, resets⟩ ⟨bal', resets'⟩ _ ⟨hbal, rfl⟩
  by_cases hlow : bal < amount
  · -- no writes, whatever the run on the ceilings does
    rw [if_pos hlow]
    exact .ret_of_forall statusCovered_nil _
  · rw [if_neg hlow, if_neg (by omega)]
    refine .bind (dominated_readU64 _) fun nonce nonce' _ hnonce => ?_
    refine .bind (dominated_credit hfunded receiver amount _) fun credit credit' _ hcredit => ?_
    refine .bind (dominated_sub hbal (Nat.le_of_not_lt hlow)) fun rest rest' _ hrest => ?_
    refine .bind (dominated_add hnonce (Nat.le_refl _)) fun next next' _ hnext => ?_
    exact .ret (.cons rfl hrest (.cons hcredit.1 hcredit.2 (.cons rfl hnext (covered_refl _))))

lemma dominated_mint (hfunded : ex.FundedBelow c) {txn : StablecoinTx} {target amount : ℕ}
    (htype : txn.txType = .mint target amount) :
    Dominated c.Allows c.store (ex.StatusCovered hash) (ex.executeTransaction hash txn)
      (ex.executeTransaction hash txn) := by
  simp only [executeTransaction, htype]
  refine .bind (dominated_readU64 _) fun supply supply' _ hsupply => ?_
  refine .bind (dominated_readU64 _) fun nonce nonce' _ hnonce => ?_
  refine .bind (dominated_credit hfunded target amount _) fun credit credit' _ hcredit => ?_
  refine .bind (dominated_add hsupply (Nat.le_refl _)) fun sum sum' _ hsum => ?_
  refine .bind (dominated_add hnonce (Nat.le_refl _)) fun next next' _ hnext => ?_
  exact .ret (.cons hcredit.1 hcredit.2 (.cons rfl hsum (.cons rfl hnext (covered_refl _))))

/-- A burn is monotone only as long as it takes nothing: the supply it subtracts
from may be any value below the ceiling. -/
lemma dominated_burn (hfunded : ex.FundedBelow c) {txn : StablecoinTx} {source amount : ℕ}
    (htype : txn.txType = .burn source amount) (hnever : ex.neverBurns c txn = true) :
    Dominated c.Allows c.store (ex.StatusCovered hash) (ex.executeTransaction hash txn)
      (ex.executeTransaction hash txn) := by
  simp only [executeTransaction, htype]
  refine .bind (dominated_burnBalance hfunded source) fun bal bal' heval hbal => ?_
  by_cases hlow : bal < amount
  · rw [if_pos hlow]
    exact .ret_of_forall statusCovered_nil _
  · have hzero : amount = 0 := by
      simp only [neverBurns, htype, heval, Bool.or_eq_true, decide_eq_true_eq] at hnever
      omega
    subst hzero
    rw [if_neg hlow, if_neg (Nat.not_lt_zero _)]
    refine .bind (dominated_readU64 _) fun supply supply' _ hsupply => ?_
    refine .bind (dominated_readU64 _) fun nonce nonce' _ hnonce => ?_
    refine .bind (dominated_sub hbal (Nat.zero_le _)) fun rest rest' _ hrest => ?_
    refine .bind (dominated_sub hsupply (Nat.zero_le _)) fun left left' _ hleft => ?_
    refine .bind (dominated_add hnonce (Nat.le_refl _)) fun next next' _ hnext => ?_
    exact .ret (.cons rfl hrest (.cons rfl hleft (.cons rfl hnext (covered_refl _))))

/-- The executor is monotone in what it reads, on a transaction that burns
nothing. -/
lemma dominated_executeTransaction (hfunded : ex.FundedBelow c) {txn : StablecoinTx}
    (hnever : ex.neverBurns c txn = true) :
    Dominated c.Allows c.store (ex.StatusCovered hash) (ex.executeTransaction hash txn)
      (ex.executeTransaction hash txn) := by
  cases htype : txn.txType with
  | transfer sender receiver amount => exact dominated_transfer hfunded htype
  | mint target amount => exact dominated_mint hfunded htype
  | burn source amount => exact dominated_burn hfunded htype hnever
  | initBalance account amount =>
      simp only [executeTransaction, htype]
      exact .ret (covered_refl _)

/-! ### The ceilings are an envelope -/

/-- What one transaction does on its ceilings: they do not fall, it does not
fault, and its writes are below the ceilings after it. -/
lemma within_of_raiseCeilings (hfunded : ex.FundedBelow c) {c' : Ceilings} {txn : StablecoinTx}
    (h : ex.raiseCeilings hash c txn = some c') :
    (∀ key, c key ≤ c' key) ∧ (ex.executeTransaction hash txn).Within c.Allows fun status =>
      ∀ write ∈ (ex.stablecoinTask hash).writesOf status, c'.Allows write.1 write.2 := by
  rw [raiseCeilings] at h
  split at h
  · rename_i hnever
    obtain ⟨status', heval, rfl⟩ := Option.map_eq_some_iff.mp h
    refine ⟨fun key => c.le_raise _ key, ?_⟩
    refine (dominated_executeTransaction hfunded hnever status' heval).imp ?_
    intro status hcovered write hmem
    obtain ⟨write', hmem', hkey, hle⟩ := hcovered write hmem
    rw [← hkey]
    exact Nat.le_trans hle (c.le_raise_of_mem hmem')
  · cases h

lemma ceilings_append (block rest : List StablecoinTx) : ex.ceilings hash (block ++ rest) =
    (ex.ceilings hash block).bind fun c => rest.foldlM (ex.raiseCeilings hash) c :=
  List.foldlM_append

lemma ceilings_concat (block : List StablecoinTx) (txn : StablecoinTx) :
    ex.ceilings hash (block ++ [txn]) =
      (ex.ceilings hash block).bind fun c => ex.raiseCeilings hash c txn := by
  simp [ceilings_append]

/-- A block with ceilings has them at each of its transactions. -/
lemma exists_ceilings_take {block : List StablecoinTx} (h : (ex.ceilings hash block).isSome)
    (t : ℕ) : ∃ c, ex.ceilings hash (block.take t) = some c := by
  obtain ⟨c, hc⟩ := Option.isSome_iff_exists.mp h
  rw [← List.take_append_drop t block, ceilings_append, Option.bind_eq_some_iff] at hc
  obtain ⟨c', hc', -⟩ := hc
  exact ⟨c', hc'⟩

lemma fundedBelow_ceilings {block : List StablecoinTx} (h : ex.ceilings hash block = some c) :
    ex.FundedBelow c := by
  induction block using List.reverseRecOn generalizing c with
  | nil =>
      cases h
      exact fun _ => Nat.le_refl _
  | append_singleton block txn ih =>
      rw [ceilings_concat, Option.bind_eq_some_iff] at h
      obtain ⟨c', hc', hraise⟩ := h
      exact fun account =>
        Nat.le_trans (ih hc' account) ((within_of_raiseCeilings (ih hc') hraise).1 _)

/-- The ceilings at each transaction of a block are an envelope. -/
lemma ceilings_envelope {cfg : Setup StablecoinTx StateKey ℕ StablecoinOutput String}
    (htask : cfg.task = ex.stablecoinTask hash) {c : ℕ → Ceilings}
    (hc : ∀ t, ex.ceilings hash (cfg.block.take t) = some (c t)) :
    cfg.Envelope fun t => (c t).Allows := by
  have hraise : ∀ t txn, cfg.block[t]? = some txn →
      ex.raiseCeilings hash (c t) txn = some (c (t + 1)) := by
    intro t txn hget
    have hnext := hc (t + 1)
    rwa [List.take_add_one, hget, Option.toList_some, ceilings_concat, hc t,
      Option.bind_some] at hnext
  refine ⟨fun t key v h => ?_, fun t txn hget => ?_⟩
  · cases hget : cfg.block[t]? with
    | none =>
        have hsame := hc (t + 1)
        rw [List.take_add_one, hget, Option.toList_none, List.append_nil, hc t] at hsame
        rwa [← Option.some.inj hsame]
    | some txn =>
        exact Nat.le_trans h
          ((within_of_raiseCeilings (fundedBelow_ceilings (hc t)) (hraise t txn hget)).1 key)
  · rw [htask]
    exact (within_of_raiseCeilings (fundedBelow_ceilings (hc t)) (hraise t txn hget)).2

/-- **Speculation does not fault** on a block with ceilings, on any number of
workers and in any interleaving of their reads and writes. -/
theorem no_speculative_fault (hash : ℕ → ℕ) (ex : StablecoinExecutor)
    (cfg : Setup StablecoinTx StateKey ℕ StablecoinOutput String)
    (htask : cfg.task = ex.stablecoinTask hash) (hceilings : (ex.ceilings hash cfg.block).isSome)
    (m : ℕ) (acts : List (Fin m × ℕ)) (w : Fin m) :
    ((leapRun cfg acts).pc w).faults = false := by
  choose c hc using exists_ceilings_take hceilings
  exact no_fault_of_envelope (ceilings_envelope htask hc) acts w

/-- A block for an executor that funds every account with 5. -/
def fundedBlock (block : List StablecoinTx) :
    Setup StablecoinTx StateKey ℕ StablecoinOutput String where
  task := stablecoinTask id ⟨none, 5⟩
  block := block
  backpressureWindow := 0
  segmentBounds := []
  txnToSegment := []

/-- The first worker takes a transaction and is held up after its first write, the
second goes on with the next transaction. -/
def heldUp : List (Fin 2 × ℕ) := List.replicate 15 (first, 0) ++ List.replicate 21 (second, 0)

/-- A mint, a transfer of minted money, and a burn that no account can cover. -/
theorem no_speculative_fault_uncovered :
    ((⟨none, 5⟩ : StablecoinExecutor).ceilings id
        [⟨.mint 1 10, 0, 0⟩, ⟨.transfer 1 2 12, 0, 1⟩, ⟨.burn 3 7, 1, 2⟩]).isSome = true ∧
      ((leapRun (fundedBlock [⟨.mint 1 10, 0, 0⟩, ⟨.transfer 1 2 12, 0, 1⟩, ⟨.burn 3 7, 1, 2⟩])
        heldUp).pc 1).faults = false :=
  have hceilings : ((⟨none, 5⟩ : StablecoinExecutor).ceilings id
      [⟨.mint 1 10, 0, 0⟩, ⟨.transfer 1 2 12, 0, 1⟩, ⟨.burn 3 7, 1, 2⟩]).isSome = true := by
    decide +kernel
  ⟨hceilings, no_speculative_fault id ⟨none, 5⟩ (fundedBlock _) rfl hceilings 2 heldUp 1⟩

/-! ### Blocks that fault -/

lemma le_of_eval_addShards {st : Ledger} {account total sum : ℕ} {shards : List ℕ}
    (h : (addShards account shards total).eval st = some sum) : total ≤ sum := by
  induction shards generalizing total with
  | nil =>
      cases h
      exact Nat.le_refl _
  | cons shard rest ih =>
      simp only [addShards, Body.eval_bind, eval_readU64, Option.bind_some, eval_checked,
        Option.bind_eq_some_iff] at h
      obtain ⟨next, hadd, hrest⟩ := h
      obtain ⟨-, rfl⟩ := addU64_eq_some.mp hadd
      exact Nat.le_trans (Nat.le_add_right _ _) (ih hrest)

/-- Before anything is written a burn finds at least the funded balance. -/
lemma funded_le_of_eval_burnBalance {source bal : ℕ}
    (h : (ex.burnBalance source).eval Store.empty = some bal) : ex.fundedBalance ≤ bal := by
  rw [burnBalance] at h
  split at h
  · simp only [readBalanceWithDeltas, Body.eval_bind, eval_readBalance, Option.bind_some] at h
    split at h
    · exact le_of_eval_addShards h
    · cases h
      exact Nat.le_refl _
  · rw [eval_readBalance] at h
    cases h
    exact Nat.le_refl _

/-- On the empty ledger a burn of a positive amount up to the funded balance
underflows: there is no supply to take it from. -/
lemma eval_burn_empty {txn : StablecoinTx} {source amount : ℕ}
    (htype : txn.txType = .burn source amount) (hpos : 0 < amount)
    (hle : amount ≤ ex.fundedBalance) :
    (ex.executeTransaction hash txn).eval Store.empty = none := by
  simp only [executeTransaction, htype, Body.eval_bind]
  cases hbal : (ex.burnBalance source).eval Store.empty with
  | none => rfl
  | some bal =>
      have hfunded := funded_le_of_eval_burnBalance hbal
      have hsupply : subU64 0 amount = none := by
        rw [subU64, if_neg (Nat.not_le_of_lt hpos)]
      rw [Option.bind_some, if_neg (by omega)]
      simp [hsupply]

/-- **A burn up to the funded balance faults** in some interleaving of as many
workers as there are transactions up to it, whatever is minted before. -/
theorem eager_burn_underflows (hash : ℕ → ℕ) (ex : StablecoinExecutor)
    (cfg : Setup StablecoinTx StateKey ℕ StablecoinOutput String)
    (htask : cfg.task = ex.stablecoinTask hash) {t source amount : ℕ} {txn : StablecoinTx}
    (hget : cfg.block[t]? = some txn) (htype : txn.txType = .burn source amount)
    (hpos : 0 < amount) (hle : amount ≤ ex.fundedBalance) {m : ℕ} (ht : t < m) :
    ∃ acts, ((leapRun (m := m) cfg acts).pc ⟨t, ht⟩).faults = true := by
  refine exists_fault_of_eval cfg hget ?_ ht
  rw [htask]
  exact eval_burn_empty htype hpos hle

/-- **A burn may see the credit of a mint without its supply.** In order, the mint
of 10 comes first and the burn of 10 finds both. Between the two writes of the
mint the burn finds a balance of 15 and a supply of 0, and underflows. -/
theorem torn_burn_underflows :
    (∀ txn ∈ [(⟨.mint 1 10, 0, 0⟩ : StablecoinTx), ⟨.burn 1 10, 1, 1⟩], ¬txn.IsSelfTransfer) ∧
      ((stablecoinTask id ⟨none, 5⟩).serialRun Store.empty
        [⟨.mint 1 10, 0, 0⟩, ⟨.burn 1 10, 1, 1⟩]).isSome = true ∧
      ((leapRun (fundedBlock [⟨.mint 1 10, 0, 0⟩, ⟨.burn 1 10, 1, 1⟩]) heldUp).pc 1).faults =
        true := by
  refine ⟨?_, by decide +kernel, by decide +kernel⟩
  intro txn hmem
  rintro ⟨account, amount, htype⟩
  simp only [List.mem_cons, List.not_mem_nil, or_false] at hmem
  rcases hmem with rfl | rfl
  · cases htype
  · cases htype

end StablecoinExecutor

end StablecoinSystem
