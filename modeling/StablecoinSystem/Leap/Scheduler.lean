import StablecoinSystem.Leap.MvMemory

/-!
The state the LEAP workers share: the fields of `Scheduler`
(`scheduler.rs`), the multi-version map and the last inputs and outputs
(`txn_last_input_output.rs`).

An atomic operation on it is a `Move`, which changes one field. The vectors
indexed by transactions are functions of the index; the range checks of
`is_executed` and `try_incarnate` are kept.
-/

namespace StablecoinSystem

/-- `TransactionStatus`. -/
inductive TransactionStatus where
  | readyToExecute (incarnation : ℕ)
  | executing (incarnation : ℕ)
  | executed (incarnation : ℕ)
  | aborting (incarnation : ℕ)
  deriving DecidableEq, Repr

/-- `Error` of `errors.rs`. -/
inductive Error (E : Type) where
  | invariantViolation
  | userError (err : E)
  deriving DecidableEq, Repr

/-- `ReadKind`: the version a read found, or storage. -/
inductive ReadKind where
  | mvHashMap (txnIdx incarnation : ℕ)
  | storage
  deriving DecidableEq, Repr

/-- `ReadDescriptor`. -/
structure ReadDescriptor (K : Type) where
  accessPath : K
  kind : ReadKind
  deriving DecidableEq, Repr

/-- What `execute_transactions_parallel` is given: the executor, the block, and
the scheduling parameters of the `ParallelTransactionExecutor`. -/
structure Setup (T K V O E : Type) where
  task : ExecutorTask T K V O E
  block : List T
  backpressureWindow : ℕ
  segmentBounds : List (ℕ × ℕ × Bool)
  txnToSegment : List ℕ

/-- `num_txns`. -/
def Setup.numTxns {T K V O E : Type} (cfg : Setup T K V O E) : ℕ := cfg.block.length

/-- The shared state. `depLocked d` says that a `try_add_dependency` holds the
mutex of `txn_dependency[d]`. -/
structure Shared (K V O E : Type) where
  executionIdx : ℕ
  validationIdx : ℕ
  decreaseCnt : ℕ
  numActiveTasks : ℕ
  doneMarker : Bool
  stopIdx : ℕ
  txnDependency : ℕ → List ℕ
  depLocked : ℕ → Bool
  txnStatus : ℕ → TransactionStatus
  abortCount : ℕ
  waitCount : ℕ
  data : MVHashMap K V
  inputs : ℕ → Option (List (ReadDescriptor K))
  outputs : ℕ → Option (ExecutionStatus O (Error E))

/-- One atomic operation on the shared state. -/
inductive Move (K V O E : Type) where
  | idle
  | countWait
  | countAbort
  | storeDone
  | takeGuard
  | dropGuard
  | setValidationIdx (idx : ℕ)
  | setExecutionIdx (idx : ℕ)
  | countDecrease
  | setStopIdx (idx : ℕ)
  | lockDependency (dep : ℕ)
  | setDependency (dep : ℕ) (waiting : List ℕ)
  | setStatus (txnIdx : ℕ) (status : TransactionStatus)
  | setData (data : MVHashMap K V)
  | setInput (txnIdx : ℕ) (reads : List (ReadDescriptor K))
  | setOutput (txnIdx : ℕ) (status : ExecutionStatus O (Error E))

variable {T K V O E : Type}

/-- The effect of an operation. `setDependency` stores a list and releases the
mutex it was taken under. -/
def Move.perform (sh : Shared K V O E) : Move K V O E → Shared K V O E
  | .idle => sh
  | .countWait => { sh with waitCount := sh.waitCount + 1 }
  | .countAbort => { sh with abortCount := sh.abortCount + 1 }
  | .storeDone => { sh with doneMarker := true }
  | .takeGuard => { sh with numActiveTasks := sh.numActiveTasks + 1 }
  | .dropGuard => { sh with numActiveTasks := sh.numActiveTasks - 1 }
  | .setValidationIdx idx => { sh with validationIdx := idx }
  | .setExecutionIdx idx => { sh with executionIdx := idx }
  | .countDecrease => { sh with decreaseCnt := sh.decreaseCnt + 1 }
  | .setStopIdx idx => { sh with stopIdx := idx }
  | .lockDependency dep => { sh with depLocked := Function.update sh.depLocked dep true }
  | .setDependency dep waiting =>
      { sh with
        txnDependency := Function.update sh.txnDependency dep waiting
        depLocked := Function.update sh.depLocked dep false }
  | .setStatus txnIdx status => { sh with txnStatus := Function.update sh.txnStatus txnIdx status }
  | .setData data => { sh with data := data }
  | .setInput txnIdx reads => { sh with inputs := Function.update sh.inputs txnIdx (some reads) }
  | .setOutput txnIdx status =>
      { sh with outputs := Function.update sh.outputs txnIdx (some status) }

/-! ### `ReadDescriptor` and `TxnLastInputOutput` -/

namespace ReadDescriptor

/-- `ReadDescriptor::validate_version`. -/
def validateVersion (r : ReadDescriptor K) (version : ℕ × ℕ) : Bool :=
  r.kind = .mvHashMap version.1 version.2

/-- `ReadDescriptor::validate_storage`. -/
def validateStorage (r : ReadDescriptor K) : Bool := r.kind = .storage

/-- The test `validate_one` makes of one recorded read: the map still answers
it with the recorded version. -/
def isValid (data : MVHashMap K V) (txnIdx : ℕ) (r : ReadDescriptor K) : Bool :=
  match data.read r.accessPath txnIdx with
  | .ok (version, _) => r.validateVersion version
  | .error (some _) => false
  | .error none => r.validateStorage

end ReadDescriptor

namespace Shared

/-- `TxnLastInputOutput::write_set`: the keys of the recorded output. -/
def writeSet (cfg : Setup T K V O E) (sh : Shared K V O E) (txnIdx : ℕ) : List K :=
  match sh.outputs txnIdx with
  | none => []
  | some status => (cfg.task.writesOf status).map Prod.fst

/-- `Scheduler::is_executed`. -/
def isExecuted (cfg : Setup T K V O E) (sh : Shared K V O E) (txnIdx : ℕ) : Option ℕ :=
  if cfg.numTxns ≤ txnIdx then none
  else
    match sh.txnStatus txnIdx with
    | .executed incarnation => some incarnation
    | _ => none

/-- The incarnation `Scheduler::try_incarnate` starts, if the transaction is
ready. -/
def tryIncarnate (cfg : Setup T K V O E) (sh : Shared K V O E) (txnIdx : ℕ) : Option ℕ :=
  if cfg.numTxns ≤ txnIdx then none
  else
    match sh.txnStatus txnIdx with
    | .readyToExecute incarnation => some incarnation
    | _ => none

/-- The state at the start of a block: `Scheduler::with_domain_plan`,
`MVHashMap::new` and `TxnLastInputOutput::new`. -/
def initial (cfg : Setup T K V O E) : Shared K V O E where
  executionIdx := 0
  validationIdx := 0
  decreaseCnt := 0
  numActiveTasks := 0
  doneMarker := false
  stopIdx := cfg.numTxns
  txnDependency := fun _ => []
  depLocked := fun _ => false
  txnStatus := fun _ => .readyToExecute 0
  abortCount := 0
  waitCount := 0
  data := .new
  inputs := fun _ => none
  outputs := fun _ => none

end Shared

/-- `Scheduler::find_segment`. -/
def Setup.findSegment (cfg : Setup T K V O E) (idx : ℕ) : ℕ :=
  cfg.txnToSegment[idx]?.getD cfg.segmentBounds.length

/-- Execution is more than the backpressure window ahead of validation. -/
def Setup.backpressured (cfg : Setup T K V O E) (idxToValidate idxToExecute : ℕ) : Bool :=
  0 < cfg.backpressureWindow && idxToValidate < idxToExecute &&
    cfg.backpressureWindow < idxToExecute - idxToValidate

/-- Execution is in a later segment than validation, and that segment may not
run in parallel with the one before it. -/
def Setup.throttled (cfg : Setup T K V O E) (idxToValidate idxToExecute : ℕ) : Bool :=
  cfg.findSegment idxToValidate < cfg.findSegment idxToExecute &&
    match cfg.segmentBounds[cfg.findSegment idxToExecute]? with
    | some (_, _, parallel) => !parallel
    | none => false

end StablecoinSystem
