import StablecoinSystem.Support.Store

/-!
`task.rs`: what the executor knows about a transaction.

A transaction is run by an `ExecutorTask`, of which the scheduler sees only
the keys it reads, in order, and how it ends.  `Body` records exactly that: the
run of one transaction as a tree that either ends or asks for a key and goes on
with the answer.  The answers are those of `MVHashMapView::read`: a value, the
absence of one (`Ok(None)`), or the dependency error that LEAP's own read
helpers swallow.

* `Body.eval`: the run against a store, in which every read is answered;
* `eval_bind`: evaluation is compositional, so a body written with `do` is
  evaluated statement by statement;
* `serialRun`: the in-order run of a block, each transaction reading what the
  ones before it wrote.
-/

namespace StablecoinSystem

/-- `ExecutionStatus` of `task.rs`. -/
inductive ExecutionStatus (T E : Type) where
  | success (output : T)
  | abort (err : E)
  | skipRest (output : T)
  deriving DecidableEq, Repr

/-- What `MVHashMapView::read` returns: `Ok` of an optional value, or the error
of a read that met an estimate. -/
inductive ReadResult (V : Type) where
  | ok (v : Option V)
  | err
  deriving DecidableEq, Repr

/-- The run of a transaction as the scheduler sees it.  `fault` is a panic of
the executor, as an overflow is in a build with overflow checks. -/
inductive Body (K V α : Type) where
  | ret (a : α)
  | fault
  | read (key : K) (next : ReadResult V → Body K V α)

namespace Body

variable {K V α β : Type}

/-- Run a body, then another one on its result. -/
def bind : Body K V α → (α → Body K V β) → Body K V β
  | ret a, f => f a
  | fault, _ => fault
  | read k next, f => read k fun r => (next r).bind f

instance : Monad (Body K V) where
  pure := ret
  bind := bind

@[simp] lemma pure_eq (a : α) : (pure a : Body K V α) = ret a := rfl
@[simp] lemma ret_bind (a : α) (f : α → Body K V β) : (ret a : Body K V α) >>= f = f a := rfl
@[simp] lemma fault_bind (f : α → Body K V β) : (fault : Body K V α) >>= f = fault := rfl
@[simp] lemma read_bind (k : K) (next : ReadResult V → Body K V α) (f : α → Body K V β) :
    read k next >>= f = read k fun r => next r >>= f := rfl

/-- The run of a body against a store: every read is answered with the value of
the store, and `none` is a fault. -/
def eval (st : Store K V) : Body K V α → Option α
  | ret a => some a
  | fault => none
  | read k next => (next (.ok (st k))).eval st

@[simp] lemma eval_ret (st : Store K V) (a : α) : (ret a : Body K V α).eval st = some a := rfl
@[simp] lemma eval_fault (st : Store K V) : (fault : Body K V α).eval st = none := rfl
@[simp] lemma eval_read (st : Store K V) (k : K) (next : ReadResult V → Body K V α) :
    (read k next).eval st = (next (.ok (st k))).eval st := rfl

/-- Evaluation is compositional. -/
@[simp] lemma eval_bind (st : Store K V) (b : Body K V α) (f : α → Body K V β) :
    (b >>= f).eval st = (b.eval st).bind fun a => (f a).eval st := by
  induction b with
  | ret a => rfl
  | fault => rfl
  | read k next ih => simpa using ih (.ok (st k))

/-- However its reads are answered, the run ends with `Success`. -/
def Succeeds {O E : Type} : Body K V (ExecutionStatus O E) → Prop
  | ret (.success _) => True
  | ret _ | fault => False
  | read _ next => ∀ r, (next r).Succeeds

lemma Succeeds.eq_success {O E : Type} {status : ExecutionStatus O E}
    (h : (ret status : Body K V _).Succeeds) : ∃ o, status = .success o := by
  cases status with
  | success o => exact ⟨o, rfl⟩
  | abort err => exact absurd h id
  | skipRest o => exact absurd h id

lemma Succeeds.eval_eq {O E : Type} {b : Body K V (ExecutionStatus O E)} (h : b.Succeeds)
    (st : Store K V) : ∃ o, b.eval st = some (.success o) := by
  induction b with
  | ret status =>
      obtain ⟨o, rfl⟩ := h.eq_success
      exact ⟨o, rfl⟩
  | fault => exact absurd h id
  | read k next ih => exact ih (.ok (st k)) (h (.ok (st k)))

/-- However its reads are answered, what the run returns satisfies `P`. -/
def Returns (P : α → Prop) : Body K V α → Prop
  | ret a => P a
  | fault => True
  | read _ next => ∀ r, (next r).Returns P

lemma returns_true (b : Body K V α) : b.Returns fun _ => True := by
  induction b with
  | ret a => trivial
  | fault => trivial
  | read k next ih => exact ih

/-- What the first body returns is what the second one starts from. -/
lemma Returns.bind {Q : α → Prop} {P : β → Prop} {b : Body K V α} {f : α → Body K V β}
    (hb : b.Returns Q) (hf : ∀ a, Q a → (f a).Returns P) : (b >>= f).Returns P := by
  induction b with
  | ret a => exact hf a hb
  | fault => trivial
  | read k next ih => exact fun r => ih r (hb r)

/-- The run against a store is one of them. -/
lemma Returns.eval {P : α → Prop} {b : Body K V α} (hb : b.Returns P) {st : Store K V} {a : α}
    (heval : b.eval st = some a) : P a := by
  induction b with
  | ret a' =>
      cases heval
      exact hb
  | fault => cases heval
  | read k next ih => exact ih _ (hb _) heval

end Body

/-- The part of `ExecutorTask` and `TransactionOutput` the executor uses: how a
transaction runs, which writes an output carries, and the output of a skipped
transaction. -/
structure ExecutorTask (T K V O E : Type) where
  executeTransaction : T → Body K V (ExecutionStatus O E)
  getWrites : O → List (K × V)
  skipOutput : O

namespace ExecutorTask

variable {T K V O E : Type}

/-- The writes that `apply_writes` makes for a status: those of the output, none
for an abort. -/
def writesOf (task : ExecutorTask T K V O E) {E' : Type} : ExecutionStatus O E' → List (K × V)
  | .success o => task.getWrites o
  | .skipRest o => task.getWrites o
  | .abort _ => []

variable [DecidableEq K]

/-- The in-order run of a block from a store: the statuses of the transactions,
each reading the writes of those before it.  The run ends at a fault. -/
def serialRun (task : ExecutorTask T K V O E) :
    Store K V → List T → Option (List (ExecutionStatus O E))
  | _, [] => some []
  | st, txn :: rest => do
      let status ← (task.executeTransaction txn).eval st
      let statuses ← task.serialRun (st.applyWrites (task.writesOf status)) rest
      return status :: statuses

lemma serialRun_cons {task : ExecutorTask T K V O E} {st : Store K V} {txn : T} {rest : List T}
    {status : ExecutionStatus O E} {statuses : List (ExecutionStatus O E)} :
    task.serialRun st (txn :: rest) = some (status :: statuses) ↔
      (task.executeTransaction txn).eval st = some status ∧
        task.serialRun (st.applyWrites (task.writesOf status)) rest = some statuses := by
  simp only [serialRun, Option.bind_eq_bind, Option.bind_eq_some_iff, Option.pure_def,
    Option.some.injEq, List.cons.injEq]
  constructor
  · rintro ⟨_, heval, _, hrest, rfl, rfl⟩
    exact ⟨heval, hrest⟩
  · rintro ⟨heval, hrest⟩
    exact ⟨status, heval, statuses, hrest, rfl, rfl⟩

/-- The store left by the writes of a list of statuses. -/
def finalStore (task : ExecutorTask T K V O E) (st : Store K V)
    (statuses : List (ExecutionStatus O E)) : Store K V :=
  statuses.foldl (fun acc status => acc.applyWrites (task.writesOf status)) st

@[simp] lemma finalStore_nil (task : ExecutorTask T K V O E) (st : Store K V) :
    task.finalStore st [] = st := rfl

@[simp] lemma finalStore_cons (task : ExecutorTask T K V O E) (st : Store K V)
    (status : ExecutionStatus O E) (statuses : List (ExecutionStatus O E)) :
    task.finalStore st (status :: statuses) =
      task.finalStore (st.applyWrites (task.writesOf status)) statuses := rfl

lemma finalStore_append (task : ExecutorTask T K V O E) (st : Store K V)
    (statuses statuses' : List (ExecutionStatus O E)) :
    task.finalStore st (statuses ++ statuses') =
      task.finalStore (task.finalStore st statuses) statuses' :=
  List.foldl_append

/-- Statuses each of which is what its transaction does on the store left by
those before it are the in-order run. -/
lemma serialRun_of_forall (task : ExecutorTask T K V O E) (st : Store K V) (block : List T)
    (statuses : List (ExecutionStatus O E)) (hlen : statuses.length = block.length)
    (h : ∀ t txn status, block[t]? = some txn → statuses[t]? = some status →
      (task.executeTransaction txn).eval (task.finalStore st (statuses.take t)) = some status) :
    task.serialRun st block = some statuses := by
  induction block generalizing st statuses with
  | nil =>
      rw [List.length_eq_zero_iff.mp hlen]
      rfl
  | cons txn block ih =>
      cases statuses with
      | nil => cases hlen
      | cons status statuses =>
          have hhead : (task.executeTransaction txn).eval st = some status := h 0 txn status rfl rfl
          have htail := ih (st.applyWrites (task.writesOf status)) statuses (Nat.succ.inj hlen)
            fun t txn' status' htxn hstatus => h (t + 1) txn' status' htxn hstatus
          exact serialRun_cons.mpr ⟨hhead, htail⟩

/-- The result of running a block in order: up to the first transaction that
does not succeed, whose output is the last one, or whose error is the result.
`none` if a transaction faults before that. -/
def inOrder (task : ExecutorTask T K V O E) : Store K V → List T → Option (Except E (List O))
  | _, [] => some (.ok [])
  | st, txn :: rest =>
      match (task.executeTransaction txn).eval st with
      | none => none
      | some (.success o) =>
          (task.inOrder (st.applyWrites (task.getWrites o)) rest).map fun r => r.map (o :: ·)
      | some (.skipRest o) => some (.ok (o :: List.replicate rest.length task.skipOutput))
      | some (.abort err) => some (.error err)

/-- The number of transactions that succeed before the first one that does not
in the in-order run. -/
def leadingSuccesses (task : ExecutorTask T K V O E) : Store K V → List T → ℕ
  | _, [] => 0
  | st, txn :: rest =>
      match (task.executeTransaction txn).eval st with
      | some (.success o) => task.leadingSuccesses (st.applyWrites (task.getWrites o)) rest + 1
      | _ => 0

/-- The transaction after the leading successes has not succeeded. -/
lemma ne_success_of_leadingSuccesses (task : ExecutorTask T K V O E) (st : Store K V)
    (block : List T) (statuses : List (ExecutionStatus O E))
    (hrun : task.serialRun st (block.take statuses.length) = some statuses)
    (hlt : task.leadingSuccesses st block < statuses.length) :
    ∃ status, statuses[task.leadingSuccesses st block]? = some status ∧
      ∀ o, status ≠ .success o := by
  induction block generalizing st statuses with
  | nil =>
      rw [List.take_nil] at hrun
      cases hrun
      cases hlt
  | cons txn block ih =>
      cases statuses with
      | nil => cases hlt
      | cons status statuses =>
          rw [List.length_cons, List.take_succ_cons, serialRun_cons] at hrun
          simp only [leadingSuccesses, hrun.1] at hlt ⊢
          cases status with
          | success o => exact ih _ statuses hrun.2 (Nat.lt_of_succ_lt_succ hlt)
          | abort err => exact ⟨_, rfl, fun o h => by cases h⟩
          | skipRest output => exact ⟨_, rfl, fun o h => by cases h⟩

lemma leadingSuccesses_of_succeeds (task : ExecutorTask T K V O E)
    (hsucc : ∀ txn, (task.executeTransaction txn).Succeeds) (st : Store K V) (block : List T) :
    task.leadingSuccesses st block = block.length := by
  induction block generalizing st with
  | nil => rfl
  | cons txn block ih =>
      obtain ⟨o, heval⟩ := (hsucc txn).eval_eq st
      simp only [leadingSuccesses, heval, ih, List.length_cons]

/-- A block of transactions that always succeed has an in-order run, of which
every output is returned. -/
lemma exists_outputs_of_succeeds (task : ExecutorTask T K V O E)
    (hsucc : ∀ txn, (task.executeTransaction txn).Succeeds) (st : Store K V) (block : List T) :
    ∃ outputs : List O, task.serialRun st block = some (outputs.map .success) ∧
      task.inOrder st block = some (.ok outputs) := by
  induction block generalizing st with
  | nil => exact ⟨[], rfl, rfl⟩
  | cons txn block ih =>
      obtain ⟨o, heval⟩ := (hsucc txn).eval_eq st
      obtain ⟨outputs, hrun, horder⟩ := ih (st.applyWrites (task.getWrites o))
      refine ⟨o :: outputs, serialRun_cons.mpr ⟨heval, hrun⟩, ?_⟩
      simp [inOrder, heval, horder, Except.map]

end ExecutorTask

end StablecoinSystem
