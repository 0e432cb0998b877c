import StablecoinSystem.Ledger.Conservation
import StablecoinSystem.Ledger.HotDelta

/-!
Hot-Delta semantic equivalence.

The executor with a shard map refines the reference executor: an account's
balance in the reference ledger is its balance key plus its shards in the
sharded one, and nonces and supply are the same.  A credit adds its amount to
one of the two parts, a debit collects all of them into the balance key and
resets the shards, an initialisation overwrites both.

* `Refines`: the relation between the reference ledger and the sharded one;
* `executeTransaction_refines`: one transaction keeps it, and succeeds in one
  run exactly if it succeeds in the other;
* `hotDelta_equiv`: the whole block.  Only the reference run is assumed free of
  overflow and underflow; that of the sharded run follows.
-/

namespace StablecoinSystem

/-- The balance of an account in a sharded ledger: its balance key plus its
delta shards. -/
def effectiveBalance (mgr : HotDeltaManager) (funded : ℕ) (st : Ledger) (account : ℕ) : ℕ :=
  st.balance funded account + shardSum st account (List.range (mgr.shardCount account))

/-- The sharded ledger `sh` represents the reference ledger `st`. -/
structure Refines (mgr : HotDeltaManager) (funded : ℕ) (st sh : Ledger) : Prop where
  balance : ∀ a, effectiveBalance mgr funded sh a = st.balance funded a
  bound : ∀ a, st.balance funded a < 2 ^ 64
  nonce : ∀ a, sh (.nonce a) = st (.nonce a)
  supply : sh .totalSupply = st .totalSupply
  cold : ∀ a s, mgr.isHot a = false → sh (.delta a s) = none

variable {mgr : HotDeltaManager} {funded : ℕ} {st sh : Ledger}

/-! ### Shards under single writes -/

/-- Writing a key that is no shard of the account keeps its shard sum. -/
lemma shardSum_insert_of_ne {k : StateKey} {a : ℕ} {shards : List ℕ}
    (h : ∀ s ∈ shards, k ≠ .delta a s) (v : ℕ) :
    shardSum (sh.insert k v) a shards = shardSum sh a shards := by
  rw [shardSum, shardSum]
  congr 1
  refine List.map_congr_left fun s hs => ?_
  rw [Store.insert_of_ne sh v (h s hs).symm]

/-- Writing one shard changes the shard sum by the new value minus the old. -/
lemma shardSum_insert (sh : Ledger) {a s : ℕ} {shards : List ℕ} (hnd : shards.Nodup)
    (hs : s ∈ shards) (v : ℕ) :
    shardSum (sh.insert (.delta a s) v) a shards + (sh (.delta a s)).getD 0 =
      shardSum sh a shards + v := by
  induction shards with
  | nil => simp at hs
  | cons s' rest ih =>
      rw [List.nodup_cons] at hnd
      have hcons : ∀ st : Ledger, shardSum st a (s' :: rest) =
          (st (.delta a s')).getD 0 + shardSum st a rest := fun st => by simp [shardSum]
      rw [hcons, hcons]
      rcases List.mem_cons.mp hs with rfl | hs'
      · rw [shardSum_insert_of_ne (by rintro s'' hs'' heq; simp_all), Store.insert_self]
        simp only [Option.getD_some]
        omega
      · have hne : StateKey.delta a s' ≠ .delta a s := by rintro heq; simp_all
        have := ih hnd.2 hs'
        rw [Store.insert_of_ne sh v hne]
        omega

lemma shardSum_eq_zero {a : ℕ} {shards : List ℕ}
    (h : ∀ s ∈ shards, (sh (.delta a s)).getD 0 = 0) : shardSum sh a shards = 0 := by
  rw [shardSum]
  refine List.sum_eq_zero fun x hx => ?_
  obtain ⟨s, hs, rfl⟩ := List.mem_map.mp hx
  exact h s hs

/-- A reset shard holds `0`: whichever write comes last, it writes `0`. -/
lemma applyWrites_resets {a s : ℕ} {shards : List ℕ} (hs : s ∈ shards) (sh : Ledger) :
    sh.applyWrites (shards.map fun s => (StateKey.delta a s, 0)) (.delta a s) = some 0 := by
  induction shards generalizing sh with
  | nil => simp at hs
  | cons s' rest ih =>
      rw [List.map_cons, Store.applyWrites_cons]
      by_cases hrest : s ∈ rest
      · exact ih hrest _
      · have heq : s = s' := by simpa [hrest] using hs
        rw [Store.applyWrites_of_notMem (by simpa using hrest), heq, Store.insert_self]

/-- Resetting the shards of an account touches nothing else. -/
lemma applyWrites_resets_of_ne {k : StateKey} {a : ℕ} {shards : List ℕ}
    (h : ∀ s, k ≠ .delta a s) :
    sh.applyWrites (shards.map fun s => (StateKey.delta a s, 0)) k = sh k := by
  refine Store.applyWrites_of_notMem ?_ sh
  simpa [Function.comp_def] using fun s _ heq => h s heq.symm

/-! ### Effective balances -/

lemma effectiveBalance_of_cold (hr : Refines mgr funded st sh) {a : ℕ}
    (hcold : mgr.isHot a = false) : effectiveBalance mgr funded sh a = sh.balance funded a := by
  rw [effectiveBalance, shardSum_eq_zero fun s _ => by simp [hr.cold a s hcold], Nat.add_zero]

/-- Two ledgers with the same balance key and shards of an account give it the
same effective balance. -/
lemma effectiveBalance_congr {sh' : Ledger} {a : ℕ} (hb : sh' (.balance a) = sh (.balance a))
    (hd : ∀ s, sh' (.delta a s) = sh (.delta a s)) :
    effectiveBalance mgr funded sh' a = effectiveBalance mgr funded sh a := by
  simp [effectiveBalance, Ledger.balance, shardSum, hb, hd]

/-- The aggregating read returns the reference balance. -/
lemma eval_readBalanceWithDeltas (hr : Refines mgr funded st sh) (a : ℕ) :
    (readBalanceWithDeltas a mgr funded).eval sh = some (st.balance funded a) := by
  have hbal := hr.balance a
  rw [readBalanceWithDeltas]
  cases hhot : mgr.isHot a with
  | true =>
      have hlt := hr.bound a
      rw [effectiveBalance] at hbal
      simp only [Body.eval_bind, eval_readBalance, Option.bind_some, if_true]
      rw [eval_addShards sh (by omega), hbal]
  | false =>
      rw [effectiveBalance_of_cold hr hhot] at hbal
      simp [hbal]

/-- So does the read of a transfer's sender, which also returns the resets. -/
lemma eval_senderBalance (hr : Refines mgr funded st sh) (a : ℕ) :
    (StablecoinExecutor.senderBalance ⟨some mgr, funded⟩ a).eval sh =
      some (st.balance funded a, StablecoinExecutor.resetsOf ⟨some mgr, funded⟩ a) := by
  cases hhot : mgr.isHot a with
  | true =>
      simp [StablecoinExecutor.senderBalance, StablecoinExecutor.resetsOf, hhot,
        eval_readBalanceWithDeltas hr]
  | false =>
      have hbal := hr.balance a
      rw [effectiveBalance_of_cold hr hhot] at hbal
      simp [StablecoinExecutor.senderBalance, StablecoinExecutor.resetsOf, hhot, hbal]

/-! ### Credits and debits -/

/-- The keys a credit of an account may write: its balance, or a shard of it if
it is hot. -/
def IsCreditKey (mgr : HotDeltaManager) (a : ℕ) (k : StateKey) : Prop :=
  k = .balance a ∨ mgr.isHot a = true ∧ ∃ s, k = .delta a s

lemma IsCreditKey.ne_of_ne {a a' : ℕ} {k : StateKey} (h : IsCreditKey mgr a k) (hne : a' ≠ a) :
    StateKey.balance a' ≠ k ∧ ∀ s, StateKey.delta a' s ≠ k := by
  rcases h with rfl | ⟨-, s, rfl⟩ <;> simp [hne]

lemma IsCreditKey.ne_nonce {a : ℕ} {k : StateKey} (h : IsCreditKey mgr a k) (a' : ℕ) :
    StateKey.nonce a' ≠ k := by
  rcases h with rfl | ⟨-, s, rfl⟩ <;> simp

lemma IsCreditKey.ne_totalSupply {a : ℕ} {k : StateKey} (h : IsCreditKey mgr a k) :
    StateKey.totalSupply ≠ k := by
  rcases h with rfl | ⟨-, s, rfl⟩ <;> simp

lemma IsCreditKey.ne_of_cold {a a' : ℕ} {k : StateKey} (h : IsCreditKey mgr a k)
    (hcold : mgr.isHot a' = false) (s : ℕ) : StateKey.delta a' s ≠ k := by
  rcases h with rfl | ⟨hhot, s, rfl⟩
  · simp
  · rintro heq
    simp only [StateKey.delta.injEq] at heq
    rw [heq.1, hhot] at hcold
    exact absurd hcold (by simp)

/-- What a credit writes: a balance or a shard of the account, raising its
effective balance by the amount. -/
lemma eval_credit (hash : ℕ → ℕ) (hr : Refines mgr funded st sh) {a amount : ℕ} (txHash : ℕ)
    (hfit : st.balance funded a + amount < 2 ^ 64) :
    ∃ k v, (StablecoinExecutor.credit hash ⟨some mgr, funded⟩ a amount txHash).eval sh =
        some (k, v) ∧
      IsCreditKey mgr a k ∧
      ∀ sh' : Ledger, sh' (.balance a) = sh (.balance a) →
        (∀ s, sh' (.delta a s) = sh (.delta a s)) →
        effectiveBalance mgr funded (sh'.insert k v) a = st.balance funded a + amount := by
  have hbal := hr.balance a
  cases hhot : mgr.isHot a with
  | true =>
      -- Hot: one shard grows, and it is at most the sum, so it cannot overflow either.
      obtain ⟨s, hs⟩ : ∃ s, s = hash txHash % mgr.shardCount a := ⟨_, rfl⟩
      have hmem : s ∈ List.range (mgr.shardCount a) := by
        rw [hs]
        exact List.mem_range.mpr (Nat.mod_lt _ (mgr.shardCount_pos a))
      have hle : (sh (.delta a s)).getD 0 ≤ shardSum sh a (List.range (mgr.shardCount a)) := by
        have := shardSum_insert sh (a := a) List.nodup_range hmem 0
        omega
      rw [effectiveBalance] at hbal
      have hadd : addU64 ((sh (.delta a s)).getD 0) amount =
          some ((sh (.delta a s)).getD 0 + amount) := addU64_of_lt (by omega)
      refine ⟨.delta a s, (sh (.delta a s)).getD 0 + amount, ?_, Or.inr ⟨hhot, s, rfl⟩, ?_⟩
      · simp [StablecoinExecutor.credit, HotDeltaManager.deltaKey, hhot, ← hs, hadd]
      · intro sh' hb hd
        have hsum := shardSum_insert sh' (a := a) List.nodup_range hmem
          ((sh (.delta a s)).getD 0 + amount)
        have hsame : shardSum sh' a (List.range (mgr.shardCount a)) =
            shardSum sh a (List.range (mgr.shardCount a)) := by simp [shardSum, hd]
        have hbase : Ledger.balance funded (sh'.insert (.delta a s)
            ((sh (.delta a s)).getD 0 + amount)) a = sh.balance funded a := by
          simp [Ledger.balance, hb]
        rw [hd s] at hsum
        rw [effectiveBalance, hbase]
        omega
  | false =>
      -- Cold: all shards are zero, and the balance itself grows.
      have hcold := effectiveBalance_of_cold hr hhot
      have hadd : addU64 (sh.balance funded a) amount = some (st.balance funded a + amount) := by
        rw [← hbal, hcold, addU64_of_lt (by omega)]
      refine ⟨.balance a, st.balance funded a + amount, ?_, Or.inl rfl, ?_⟩
      · simp [StablecoinExecutor.credit, hhot, hadd]
      · intro sh' hb hd
        have h0 : shardSum (sh'.insert (.balance a) (st.balance funded a + amount)) a
            (List.range (mgr.shardCount a)) = 0 := by
          rw [shardSum_insert_of_ne (by simp)]
          exact shardSum_eq_zero fun s _ => by simp [hd, hr.cold a s hhot]
        rw [effectiveBalance, h0]
        simp [Ledger.balance]

lemma resetsOf_hot {a : ℕ} (hhot : mgr.isHot a = true) :
    StablecoinExecutor.resetsOf ⟨some mgr, funded⟩ a = shardResets mgr a := by
  simp [StablecoinExecutor.resetsOf, hhot]

lemma resetsOf_cold {a : ℕ} (hcold : mgr.isHot a = false) :
    StablecoinExecutor.resetsOf ⟨some mgr, funded⟩ a = [] := by
  simp [StablecoinExecutor.resetsOf, hcold]

/-- Writing the balance key and then the resets of an account leaves it with
exactly the balance written. -/
lemma effectiveBalance_resets (hr : Refines mgr funded st sh) {sh' : Ledger} {a v : ℕ}
    (hb : sh' (.balance a) = some v) (hd : ∀ s, sh' (.delta a s) = sh (.delta a s)) :
    effectiveBalance mgr funded
      (sh'.applyWrites (StablecoinExecutor.resetsOf ⟨some mgr, funded⟩ a)) a = v := by
  cases hhot : mgr.isHot a with
  | true =>
      rw [resetsOf_hot hhot, shardResets, effectiveBalance, Ledger.balance,
        applyWrites_resets_of_ne (by simp), hb,
        shardSum_eq_zero fun s hs => by simp [applyWrites_resets hs]]
      rfl
  | false =>
      rw [resetsOf_cold hhot, Store.applyWrites_nil, effectiveBalance, Ledger.balance, hb,
        shardSum_eq_zero fun s _ => by simp [hd, hr.cold a s hhot]]
      rfl

/-- The resets of an account touch its shards alone, and only if it is hot. -/
lemma applyWrites_resetsOf {k : StateKey} {a : ℕ} (h : ∀ s, mgr.isHot a = true → k ≠ .delta a s) :
    sh.applyWrites (StablecoinExecutor.resetsOf ⟨some mgr, funded⟩ a) k = sh k := by
  cases hhot : mgr.isHot a with
  | true =>
      rw [resetsOf_hot hhot]
      exact applyWrites_resets_of_ne fun s => h s hhot
  | false => rw [resetsOf_cold hhot, Store.applyWrites_nil]

/-! ### The relation under single writes -/

/-- A debit, or an overwrite: the balance key and the resets of the account. -/
lemma Refines.debit (hr : Refines mgr funded st sh) (a : ℕ) {v : ℕ} (hv : v < 2 ^ 64) :
    Refines mgr funded (st.insert (.balance a) v)
      (sh.applyWrites ((.balance a, v) :: StablecoinExecutor.resetsOf ⟨some mgr, funded⟩ a)) := by
  rw [Store.applyWrites_cons]
  refine ⟨fun a' => ?_, fun a' => ?_, fun a' => ?_, ?_, fun a' s hcold => ?_⟩
  · rw [balance_insert_balance]
    by_cases ha : a' = a
    · subst ha
      rw [if_pos rfl, effectiveBalance_resets hr (Store.insert_self _ _ _)
        fun s => Store.insert_of_ne _ _ (by simp)]
    · rw [if_neg ha, ← hr.balance a']
      refine effectiveBalance_congr ?_ fun s => ?_
      · rw [applyWrites_resetsOf (by simp), Store.insert_of_ne _ _ (by simp [ha])]
      · rw [applyWrites_resetsOf (by simp [ha]), Store.insert_of_ne _ _ (by simp)]
  · rw [balance_insert_balance]
    split
    · exact hv
    · exact hr.bound a'
  · rw [applyWrites_resetsOf (by simp), Store.insert_of_ne _ _ (by simp),
      Store.insert_of_ne _ _ (by simp), hr.nonce]
  · rw [applyWrites_resetsOf (by simp), Store.insert_of_ne _ _ (by simp),
      Store.insert_of_ne _ _ (by simp), hr.supply]
  · rw [applyWrites_resetsOf (by rintro s' hhot heq; simp_all), Store.insert_of_ne _ _ (by simp),
      hr.cold a' s hcold]

/-- A credit: the write `eval_credit` speaks about. -/
lemma Refines.credit (hr : Refines mgr funded st sh) {a v b : ℕ} {k : StateKey}
    (hk : IsCreditKey mgr a k) (hb : b < 2 ^ 64)
    (heff : effectiveBalance mgr funded (sh.insert k v) a = b) :
    Refines mgr funded (st.insert (.balance a) b) (sh.insert k v) := by
  refine ⟨fun a' => ?_, fun a' => ?_, fun a' => ?_, ?_, fun a' s hcold => ?_⟩
  · rw [balance_insert_balance]
    by_cases ha : a' = a
    · rw [if_pos ha, ha, heff]
    · rw [if_neg ha, ← hr.balance a']
      exact effectiveBalance_congr (Store.insert_of_ne _ _ (hk.ne_of_ne ha).1)
        fun s => Store.insert_of_ne _ _ ((hk.ne_of_ne ha).2 s)
  · rw [balance_insert_balance]
    split
    · exact hb
    · exact hr.bound a'
  · rw [Store.insert_of_ne _ _ (hk.ne_nonce a'), Store.insert_of_ne _ _ (by simp), hr.nonce]
  · rw [Store.insert_of_ne _ _ hk.ne_totalSupply, Store.insert_of_ne _ _ (by simp), hr.supply]
  · rw [Store.insert_of_ne _ _ (hk.ne_of_cold hcold s), hr.cold a' s hcold]

/-- Nonces and the supply are written alike in both ledgers. -/
lemma Refines.insert_shared (hr : Refines mgr funded st sh) {k : StateKey} (v : ℕ)
    (hk : k = .totalSupply ∨ ∃ a, k = .nonce a) :
    Refines mgr funded (st.insert k v) (sh.insert k v) := by
  have hkb : ∀ a, k ≠ .balance a := by rcases hk with rfl | ⟨a, rfl⟩ <;> simp
  have hkd : ∀ a s, k ≠ .delta a s := by rcases hk with rfl | ⟨a, rfl⟩ <;> simp
  refine ⟨fun a => ?_, fun a => ?_, fun a => ?_, ?_, fun a s hcold => ?_⟩
  · rw [balance_insert_of_ne _ _ _ (hkb a), ← hr.balance a]
    exact effectiveBalance_congr (Store.insert_of_ne _ _ (hkb a).symm)
      fun s => Store.insert_of_ne _ _ (hkd a s).symm
  · rw [balance_insert_of_ne _ _ _ (hkb a)]
    exact hr.bound a
  · rw [Store.insert_apply, Store.insert_apply, hr.nonce]
  · rw [Store.insert_apply, Store.insert_apply, hr.supply]
  · rw [Store.insert_of_ne _ _ (hkd a s).symm, hr.cold a s hcold]

/-! ### One transaction -/

section Step

variable {txn : StablecoinTx} {st' : Ledger} {ok : Bool} (hash : ℕ → ℕ)

/-- What the two executors make of one transaction from related ledgers: the
sharded one succeeds exactly if the reference one does, and leaves a related
ledger. -/
def StepRefines (mgr : HotDeltaManager) (funded : ℕ) (txn : StablecoinTx) (sh st' : Ledger)
    (ok : Bool) : Prop :=
  ∃ out, (StablecoinExecutor.executeTransaction hash ⟨some mgr, funded⟩ txn).eval sh =
      some (.success out) ∧ decide (out.writes ≠ []) = ok ∧
    Refines mgr funded st' (sh.applyWrites out.writes)

lemma nonce_eq (hr : Refines mgr funded st sh) (a : ℕ) :
    (sh (.nonce a)).getD 0 = st.nonce a := by
  rw [hr.nonce a, Ledger.nonce]

lemma supply_eq (hr : Refines mgr funded st sh) : (sh .totalSupply).getD 0 = st.supply := by
  rw [hr.supply, Ledger.supply]

lemma eval_burnBalance (hr : Refines mgr funded st sh) (a : ℕ) :
    (StablecoinExecutor.burnBalance ⟨some mgr, funded⟩ a).eval sh = some (st.balance funded a) :=
  eval_readBalanceWithDeltas hr a

/-- The keys of a debit are distinct. -/
lemma nodup_debit (a : ℕ) (v : ℕ) :
    (((StateKey.balance a, v) ::
      StablecoinExecutor.resetsOf ⟨some mgr, funded⟩ a).map Prod.fst).Nodup := by
  cases hhot : mgr.isHot a with
  | true =>
      rw [resetsOf_hot hhot, shardResets, List.map_cons, List.map_map, List.nodup_cons]
      refine ⟨by simp, List.Nodup.map_on ?_ List.nodup_range⟩
      intro s _ s' _ heq
      simpa using heq
  | false => rw [resetsOf_cold hhot]; simp

/-- A key of a debit is the balance or a shard of the account. -/
lemma mem_debit {a v : ℕ} {k : StateKey}
    (hk : k ∈ (((StateKey.balance a, v) ::
      StablecoinExecutor.resetsOf ⟨some mgr, funded⟩ a).map Prod.fst)) :
    IsCreditKey mgr a k := by
  rw [List.map_cons, List.mem_cons] at hk
  rcases hk with rfl | hk
  · exact Or.inl rfl
  · cases hhot : mgr.isHot a with
    | true =>
        rw [resetsOf_hot hhot, shardResets, List.map_map, List.mem_map] at hk
        obtain ⟨s, -, rfl⟩ := hk
        exact Or.inr ⟨hhot, s, rfl⟩
    | false =>
        rw [resetsOf_cold hhot] at hk
        simp at hk

/-- The writes of a debit may stand first: the executor lists the resets last. -/
lemma applyWrites_debit_append {a v : ℕ} {ws : List (StateKey × ℕ)}
    (hws : (ws.map Prod.fst).Nodup) (hdis : ∀ k ∈ ws.map Prod.fst, ¬ IsCreditKey mgr a k)
    (sh : Ledger) :
    sh.applyWrites ((.balance a, v) :: ws ++ StablecoinExecutor.resetsOf ⟨some mgr, funded⟩ a) =
      (sh.applyWrites ((.balance a, v) ::
        StablecoinExecutor.resetsOf ⟨some mgr, funded⟩ a)).applyWrites ws := by
  rw [← Store.applyWrites_append]
  refine (Store.applyWrites_perm ?_ ?_ sh).symm
  · rw [List.cons_append, List.cons_append]
    exact (List.perm_append_comm).cons _
  · rw [List.map_append]
    refine List.Nodup.append (nodup_debit a v) hws fun k hk hk' => ?_
    exact hdis k hk' (mem_debit hk)

lemma transfer_refines {sender receiver amount : ℕ} (hr : Refines mgr funded st sh)
    (htx : txn.txType = .transfer sender receiver amount) (hne : receiver ≠ sender)
    (happ : applyTx funded st txn = some (st', ok)) :
    StepRefines hash mgr funded txn sh st' ok := by
  rcases applyTx_transfer htx happ with ⟨hle, hfit, hnonce, rfl, rfl⟩ | ⟨hlt, rfl, rfl⟩
  · obtain ⟨k, v, hcredit, hk, heff⟩ := eval_credit hash hr (a := receiver) txn.txHash hfit
    refine ⟨⟨(.balance sender, st.balance funded sender - amount) ::
      [(k, v), (.nonce sender, st.nonce sender + 1)] ++
        StablecoinExecutor.resetsOf ⟨some mgr, funded⟩ sender⟩, ?_, rfl, ?_⟩
    · simp only [StablecoinExecutor.executeTransaction, htx, Body.eval_bind,
        eval_senderBalance hr, Option.bind_some, if_neg (Nat.not_lt.mpr hle), eval_readU64,
        hcredit, eval_checked, subU64_of_le hle, nonce_eq hr, addU64_of_lt hnonce,
        Body.pure_eq, Body.eval_ret]
    · have hbound := hr.bound sender
      have hdebit := hr.debit sender (v := st.balance funded sender - amount) (by omega)
      have hks := hk.ne_of_ne (Ne.symm hne)
      rw [applyWrites_debit_append (by simp [(hk.ne_nonce sender).symm]) ?_]
      · refine (hdebit.credit hk hfit (heff _ ?_ fun s => ?_)).insert_shared _
          (Or.inr ⟨sender, rfl⟩)
        -- the debit of the sender leaves the receiver's keys alone
        · rw [Store.applyWrites_cons, applyWrites_resetsOf (by simp),
            Store.insert_of_ne _ _ (by simp [hne])]
        · rw [Store.applyWrites_cons, applyWrites_resetsOf (by simp [hne]),
            Store.insert_of_ne _ _ (by simp)]
      · intro k' hk' hcr
        simp only [List.map_cons, List.map_nil, List.mem_cons, List.not_mem_nil, or_false] at hk'
        rcases hk' with rfl | rfl
        · rcases hcr with rfl | ⟨-, s, rfl⟩
          · exact hks.1 rfl
          · exact hks.2 s rfl
        · exact hcr.ne_nonce sender rfl
  · refine ⟨⟨[]⟩, ?_, rfl, hr⟩
    simp only [StablecoinExecutor.executeTransaction, htx, Body.eval_bind, eval_senderBalance hr,
      Option.bind_some, if_pos hlt, Body.pure_eq, Body.eval_ret]

lemma mint_refines {target amount : ℕ} (hr : Refines mgr funded st sh)
    (htx : txn.txType = .mint target amount) (happ : applyTx funded st txn = some (st', ok)) :
    StepRefines hash mgr funded txn sh st' ok := by
  obtain ⟨hfit, hsup, hnonce, rfl, rfl⟩ := applyTx_mint htx happ
  obtain ⟨k, v, hcredit, hk, heff⟩ := eval_credit hash hr (a := target) txn.txHash hfit
  refine ⟨⟨[(k, v), (.totalSupply, st.supply + amount), (.nonce 0, st.nonce 0 + 1)]⟩, ?_, rfl, ?_⟩
  · simp only [StablecoinExecutor.executeTransaction, htx, Body.eval_bind, Option.bind_some,
      eval_readU64, hcredit, eval_checked, nonce_eq hr, supply_eq hr, addU64_of_lt hnonce,
      addU64_of_lt hsup, Body.pure_eq, Body.eval_ret]
  · exact ((hr.credit hk hfit (heff sh rfl fun _ => rfl)).insert_shared _
      (Or.inl rfl)).insert_shared _ (Or.inr ⟨0, rfl⟩)

lemma burn_refines {source amount : ℕ} (hr : Refines mgr funded st sh)
    (htx : txn.txType = .burn source amount) (happ : applyTx funded st txn = some (st', ok)) :
    StepRefines hash mgr funded txn sh st' ok := by
  rcases applyTx_burn htx happ with ⟨hle, hsup, hnonce, rfl, rfl⟩ | ⟨hlt, rfl, rfl⟩
  · refine ⟨⟨(.balance source, st.balance funded source - amount) ::
      [(.totalSupply, st.supply - amount), (.nonce 0, st.nonce 0 + 1)] ++
        StablecoinExecutor.resetsOf ⟨some mgr, funded⟩ source⟩, ?_, rfl, ?_⟩
    · simp only [StablecoinExecutor.executeTransaction, htx, Body.eval_bind, eval_burnBalance hr,
        Option.bind_some, if_neg (Nat.not_lt.mpr hle), eval_readU64, eval_checked,
        subU64_of_le hle, nonce_eq hr, supply_eq hr, subU64_of_le hsup, addU64_of_lt hnonce,
        Body.pure_eq, Body.eval_ret]
    · have hbound := hr.bound source
      have hdebit := hr.debit source (v := st.balance funded source - amount) (by omega)
      rw [applyWrites_debit_append (by simp) ?_]
      · exact (hdebit.insert_shared _ (Or.inl rfl)).insert_shared _ (Or.inr ⟨0, rfl⟩)
      · intro k' hk' hcr
        simp only [List.map_cons, List.map_nil, List.mem_cons, List.not_mem_nil, or_false] at hk'
        rcases hk' with rfl | rfl
        · exact hcr.ne_totalSupply rfl
        · exact hcr.ne_nonce 0 rfl
  · refine ⟨⟨[]⟩, ?_, rfl, hr⟩
    simp only [StablecoinExecutor.executeTransaction, htx, Body.eval_bind, eval_burnBalance hr,
      Option.bind_some, if_pos hlt, Body.pure_eq, Body.eval_ret]

lemma initBalance_refines {account amount : ℕ} (hr : Refines mgr funded st sh)
    (htx : txn.txType = .initBalance account amount) (hamt : amount < 2 ^ 64)
    (happ : applyTx funded st txn = some (st', ok)) :
    StepRefines hash mgr funded txn sh st' ok := by
  obtain ⟨rfl, rfl⟩ := applyTx_initBalance htx happ
  refine ⟨_, ?_, ?_, hr.debit account hamt⟩
  · simp only [StablecoinExecutor.executeTransaction, htx, Body.pure_eq, Body.eval_ret]
  · rfl

/-- **One transaction.** From related ledgers, a transaction that is no
self-transfer succeeds in the sharded executor exactly if it does in the
reference one, and the ledgers stay related. -/
lemma executeTransaction_refines (hr : Refines mgr funded st sh) (hself : ¬ txn.IsSelfTransfer)
    (hamt : txn.amount < 2 ^ 64) (happ : applyTx funded st txn = some (st', ok)) :
    StepRefines hash mgr funded txn sh st' ok := by
  cases htx : txn.txType with
  | transfer sender receiver amount =>
      refine transfer_refines hash hr htx (fun heq => hself ?_) happ
      exact ⟨sender, amount, by rw [htx, heq]⟩
  | mint target amount => exact mint_refines hash hr htx happ
  | burn source amount => exact burn_refines hash hr htx happ
  | initBalance account amount =>
      refine initBalance_refines hash hr htx ?_ happ
      rwa [StablecoinTx.amount, htx] at hamt

end Step

/-! ### The block -/

/-- Whether a status carries writes: how the benchmark tells a successful
transaction from a failed one (`count_parallel_outcomes`). -/
def hasWrites (status : ExecutionStatus StablecoinOutput String) : Bool :=
  match status with
  | .success out => decide (out.writes ≠ [])
  | .skipRest out => decide (out.writes ≠ [])
  | .abort _ => false

lemma refines_empty (hfunded : funded < 2 ^ 64) :
    Refines mgr funded Store.empty Store.empty := by
  refine ⟨fun a => ?_, fun a => ?_, fun a => rfl, rfl, fun a s _ => rfl⟩
  · rw [effectiveBalance, shardSum_eq_zero fun s _ => rfl, Nat.add_zero]
  · simpa [Ledger.balance] using hfunded

/-- The sharded run of a list of transactions from related ledgers. -/
lemma serialRun_refines (hash : ℕ → ℕ) {txns : List StablecoinTx} {st' : Ledger} {oks : List Bool}
    (hr : Refines mgr funded st sh) (hself : ∀ txn ∈ txns, ¬ txn.IsSelfTransfer)
    (hamt : ∀ txn ∈ txns, txn.amount < 2 ^ 64)
    (hrun : serialFrom funded st txns = some (st', oks)) :
    ∃ statuses, (StablecoinExecutor.stablecoinTask hash ⟨some mgr, funded⟩).serialRun sh txns =
        some statuses ∧ statuses.map hasWrites = oks ∧
      Refines mgr funded st' ((StablecoinExecutor.stablecoinTask hash ⟨some mgr, funded⟩).finalStore
        sh statuses) := by
  induction txns generalizing st sh oks with
  | nil =>
      simp only [serialFrom, Option.some.injEq, Prod.mk.injEq] at hrun
      obtain ⟨rfl, rfl⟩ := hrun
      exact ⟨[], rfl, rfl, hr⟩
  | cons txn rest ih =>
      obtain ⟨st₁, ok, oks', hstep, hrest, rfl⟩ := serialFrom_cons.mp hrun
      obtain ⟨out, heval, hok, hr₁⟩ := executeTransaction_refines hash hr
        (hself txn List.mem_cons_self) (hamt txn List.mem_cons_self) hstep
      obtain ⟨statuses, hstat, hoks, hfin⟩ := ih hr₁
        (fun t ht => hself t (List.mem_cons_of_mem _ ht))
        (fun t ht => hamt t (List.mem_cons_of_mem _ ht)) hrest
      refine ⟨.success out :: statuses, ?_, ?_, hfin⟩
      · have heval' : ((StablecoinExecutor.stablecoinTask hash ⟨some mgr, funded⟩).executeTransaction
            txn).eval sh = some (.success out) := heval
        have hstat' : (StablecoinExecutor.stablecoinTask hash ⟨some mgr, funded⟩).serialRun
            (sh.applyWrites ((StablecoinExecutor.stablecoinTask hash ⟨some mgr, funded⟩).writesOf
              (ExecutionStatus.success out : ExecutionStatus StablecoinOutput String))) rest =
            some statuses := hstat
        simp only [ExecutorTask.serialRun, heval', Option.bind_eq_bind, Option.bind_some, hstat',
          Option.pure_def]
      · rw [List.map_cons, hoks, hasWrites, hok]

/-- **Hot-Delta semantic equivalence.** For a block without self-transfers whose
reference run neither overflows nor underflows, any shard map and any hash: the
executor with the shard map runs the block without a fault, exactly the same
transactions succeed, and every account's balance plus its shards, every nonce
and the supply are those of the reference run. -/
theorem hotDelta_equiv (mgr : HotDeltaManager) (hash : ℕ → ℕ) (funded : ℕ)
    (txns : List StablecoinTx) (st : Ledger)
    (hfunded : funded < 2 ^ 64) (hamt : ∀ txn ∈ txns, txn.amount < 2 ^ 64)
    (hself : ∀ txn ∈ txns, ¬ txn.IsSelfTransfer)
    (hrun : serialExecuteWithBalance txns funded = some st) :
    ∃ oks statuses, serialFrom funded Store.empty txns = some (st, oks) ∧
      serialExecuteCounted txns funded =
        some (st, { total := txns.length, successful := (statuses.map hasWrites).count true }) ∧
      (StablecoinExecutor.stablecoinTask hash ⟨some mgr, funded⟩).serialRun Store.empty txns =
        some statuses ∧
      statuses.map hasWrites = oks ∧
      let sh : Ledger := (StablecoinExecutor.stablecoinTask hash ⟨some mgr, funded⟩).finalStore
        Store.empty statuses
      (∀ a, sh.balance funded a + shardSum sh a (List.range (mgr.shardCount a)) =
          st.balance funded a) ∧
        (∀ a, sh.nonce a = st.nonce a) ∧ sh.supply = st.supply := by
  obtain ⟨⟨st', oks⟩, hfrom, rfl⟩ := Option.map_eq_some_iff.mp hrun
  obtain ⟨statuses, hstat, hoks, hfin⟩ := serialRun_refines hash (refines_empty hfunded) hself hamt
    hfrom
  refine ⟨oks, statuses, hfrom, ?_, hstat, hoks, hfin.balance, fun a => ?_, ?_⟩
  · rw [serialExecuteCounted_eq hfrom, hoks]
  · exact congrArg (Option.getD · 0) (hfin.nonce a)
  · exact congrArg (Option.getD · 0) hfin.supply

/-- The shard map with one hot account. -/
def HotDeltaManager.single (account p : ℕ) (hp : 1 ≤ p) : HotDeltaManager where
  shardCounts a := if a = account then some p else none
  shardCounts_pos a q h := by
    split at h
    · rwa [← Option.some.inj h]
    · simp at h

/-- A hot account with two shards that is credited, debited and initialised. -/
theorem hotDelta_equiv_two_shards :
    ∃ statuses, (StablecoinExecutor.stablecoinTask id
        ⟨some (.single 7 2 (by decide)), 100⟩).serialRun Store.empty
        [⟨.transfer 1 7 30, 0, 4⟩, ⟨.mint 7 5, 0, 5⟩, ⟨.transfer 7 1 120, 0, 6⟩, ⟨.burn 7 20, 0, 7⟩,
          ⟨.initBalance 7 50, 0, 8⟩] = some statuses ∧
      statuses.map hasWrites = [true, true, true, false, true] := by
  obtain ⟨oks, statuses, hfrom, -, hstat, hoks, -⟩ := hotDelta_equiv (.single 7 2 (by decide)) id 100
    [⟨.transfer 1 7 30, 0, 4⟩, ⟨.mint 7 5, 0, 5⟩, ⟨.transfer 7 1 120, 0, 6⟩, ⟨.burn 7 20, 0, 7⟩,
      ⟨.initBalance 7 50, 0, 8⟩] _ (by decide) (by decide)
    (by simp [StablecoinTx.IsSelfTransfer]) rfl
  refine ⟨statuses, hstat, ?_⟩
  rw [hoks]
  have hflags := congrArg (Option.map Prod.snd) hfrom
  simpa using hflags.symm.trans (b := some [true, true, true, false, true]) rfl

end StablecoinSystem
