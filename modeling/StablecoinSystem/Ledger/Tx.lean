import Mathlib.Algebra.Ring.Nat
import StablecoinSystem.Support.Store

/-!
`stablecoin.rs`, the data: state keys, transactions, and `u64` arithmetic.

Accounts, amounts, nonces and hashes are `u64` in the source and natural
numbers here; an addition or subtraction is the checked one, `none` standing
for the overflow or underflow of the `u64` operation.
-/

namespace StablecoinSystem

/-- `StateKey`. -/
inductive StateKey where
  | balance (account : ℕ)
  | nonce (account : ℕ)
  | totalSupply
  | frozen (account : ℕ)
  | delta (account shard : ℕ)
  deriving DecidableEq, Repr

/-- `StablecoinTxType`. -/
inductive StablecoinTxType where
  | transfer (sender receiver amount : ℕ)
  | mint (target amount : ℕ)
  | burn (source amount : ℕ)
  | initBalance (account amount : ℕ)
  deriving DecidableEq, Repr

/-- `StablecoinTx`. -/
structure StablecoinTx where
  txType : StablecoinTxType
  nonce : ℕ
  txHash : ℕ
  deriving DecidableEq, Repr

namespace StablecoinTx

/-- `StablecoinTx::conflict_domain`. -/
def conflictDomain (tx : StablecoinTx) : ℕ :=
  match tx.txType with
  | .transfer _ receiver _ => receiver
  | .mint target _ => target
  | .burn source _ => source
  | .initBalance account _ => account

/-- `StablecoinTx::sender`: the minter and the burner are account `0`. -/
def sender (tx : StablecoinTx) : ℕ :=
  match tx.txType with
  | .transfer sender _ _ => sender
  | .mint _ _ => 0
  | .burn _ _ => 0
  | .initBalance account _ => account

/-- The accounts whose balance a transaction may touch. -/
def accounts (tx : StablecoinTx) : List ℕ :=
  match tx.txType with
  | .transfer sender receiver _ => [sender, receiver]
  | .mint target _ => [target]
  | .burn source _ => [source]
  | .initBalance account _ => [account]

/-- The amount of a transaction. -/
def amount (tx : StablecoinTx) : ℕ :=
  match tx.txType with
  | .transfer _ _ amount => amount
  | .mint _ amount => amount
  | .burn _ amount => amount
  | .initBalance _ amount => amount

/-- A transfer of an account to itself. -/
def IsSelfTransfer (tx : StablecoinTx) : Prop :=
  ∃ account amount, tx.txType = .transfer account account amount

end StablecoinTx

/-! ### Checked `u64` arithmetic -/

/-- `a + b` on `u64`; `none` on overflow. -/
def addU64 (a b : ℕ) : Option ℕ := if a + b < 2 ^ 64 then some (a + b) else none

/-- `a - b` on `u64`; `none` on underflow. -/
def subU64 (a b : ℕ) : Option ℕ := if b ≤ a then some (a - b) else none

lemma addU64_eq_some {a b c : ℕ} : addU64 a b = some c ↔ a + b < 2 ^ 64 ∧ a + b = c := by
  rw [addU64]
  split <;> simp_all [Nat.not_lt.mpr]

lemma subU64_eq_some {a b c : ℕ} : subU64 a b = some c ↔ b ≤ a ∧ a - b = c := by
  rw [subU64]
  split <;> simp_all [Nat.not_le.mpr]

lemma addU64_of_lt {a b : ℕ} (h : a + b < 2 ^ 64) : addU64 a b = some (a + b) := by
  rw [addU64, if_pos h]

lemma subU64_of_le {a b : ℕ} (h : b ≤ a) : subU64 a b = some (a - b) := by
  rw [subU64, if_pos h]

lemma addU64_zero_left {a : ℕ} (h : a < 2 ^ 64) : addU64 0 a = some a := by
  rw [addU64_of_lt (by omega), Nat.zero_add]

/-- The first nonce. -/
lemma addU64_zero_one : addU64 0 1 = some 1 := addU64_zero_left (by decide)

lemma subU64_self (a : ℕ) : subU64 a a = some 0 := by
  rw [subU64_of_le (Nat.le_refl a), Nat.sub_self]

/-! ### Reading a ledger -/

/-- A ledger: the values of the state keys written so far. -/
abbrev Ledger : Type := Store StateKey ℕ

namespace Ledger

/-- The balance of an account, `funded` if it was never written. -/
def balance (funded : ℕ) (st : Ledger) (account : ℕ) : ℕ := (st (.balance account)).getD funded

/-- The nonce of an account. -/
def nonce (st : Ledger) (account : ℕ) : ℕ := (st (.nonce account)).getD 0

/-- The total supply. -/
def supply (st : Ledger) : ℕ := (st .totalSupply).getD 0

end Ledger

end StablecoinSystem
