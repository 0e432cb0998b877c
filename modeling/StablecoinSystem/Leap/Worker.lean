import StablecoinSystem.Leap.Scheduler
import StablecoinSystem.Support.Workers

/-!
`executor.rs` and `scheduler.rs`: what a LEAP worker does.

A worker runs `next_task`, `execute_one` and `validate_one` in a loop. Its
program counter `Pc` names the atomic operation it performs next and carries
the local variables that are live there; `plan` says for each program counter
which operation on the shared state follows and where the worker is after it.
Each SeqCst access, each critical section and each single-key operation on the
multi-version map is one step. `try_add_dependency` takes two, since it looks
at a status under one mutex while it holds another.

Where the source iterates over a `HashSet`, the choice of the step picks the
element. A panic is `none`; unwinding drops the task guard.
-/

namespace StablecoinSystem

/-- Where `next_task` goes on when `try_validate_next_version` returns `None`:
a new iteration, or the scheduling decision after the domain-aware throttle. -/
inductive Resume where
  | retry
  | schedule (idxToValidate idxToExecute : ℕ)
  deriving DecidableEq, Repr

/-- The program counters of a worker. -/
inductive Pc (K V O E : Type) where
  -- `next_task`
  | nextTask
  | loadValidation
  | loadExecution (idxToValidate : ℕ)
  -- `try_validate_next_version`
  | validateLoad (k : Resume)
  | validateStop (k : Resume) (idx : ℕ)
  | validateGuard (k : Resume)
  | validateFetch (k : Resume)
  | validateCheck (k : Resume) (idx : ℕ)
  -- `try_execute_next_version`
  | executeLoad
  | executeStop (idx : ℕ)
  | executeGuard
  | executeFetch
  | executeIncarnate (idx : ℕ)
  -- `check_done`
  | doneCnt (k : Resume) (num : ℕ)
  | doneValidation (k : Resume) (num observed : ℕ)
  | doneExecution (k : Resume) (num observed valIdx : ℕ)
  | doneTasks (k : Resume) (num observed valIdx execIdx : ℕ)
  | doneAgain (k : Resume) (num observed : ℕ)
  | doneStore (k : Resume) (num : ℕ)
  -- the guard of a task that ends without a successor
  | dropGuard (k : Resume)
  -- `execute_one`, the check of the previous incarnation's reads
  | readSet (idx inc : ℕ)
  | precheck (idx inc : ℕ) (rest : List (ReadDescriptor K))
  | precheckDep (idx inc dep : ℕ) (rest : List (ReadDescriptor K))
  | precheckPush (idx inc dep : ℕ)
  -- `execute_one`, the run of the transaction through `MVHashMapView::read`
  | body (idx inc : ℕ) (reads : List (ReadDescriptor K)) (dependency : Bool)
      (rest : Body K V (ExecutionStatus O E))
  | readDep (idx inc : ℕ) (reads : List (ReadDescriptor K)) (dep : ℕ) (key : K)
      (next : ReadResult V → Body K V (ExecutionStatus O E))
  | readPush (idx inc : ℕ) (reads : List (ReadDescriptor K)) (dep : ℕ)
      (next : ReadResult V → Body K V (ExecutionStatus O E))
  -- `execute_one`, its effects
  | prevWrites (idx inc : ℕ) (reads : List (ReadDescriptor K)) (status : ExecutionStatus O E)
  | applyWrites (idx inc : ℕ) (reads : List (ReadDescriptor K)) (status : ExecutionStatus O E)
      (writes : List (K × V)) (prev : List K) (outside : Bool)
  | writeFailed (idx inc : ℕ)
  | deletes (idx inc : ℕ) (reads : List (ReadDescriptor K)) (status : ExecutionStatus O E)
      (prev : List K) (outside : Bool)
  | recordInput (idx inc : ℕ) (reads : List (ReadDescriptor K)) (status : ExecutionStatus O E)
      (outside : Bool)
  | recordOutput (idx inc : ℕ) (status : ExecutionStatus O E) (outside : Bool)
  -- `finish_execution`
  | setExecuted (idx inc : ℕ) (outside : Bool)
  | takeDeps (idx inc : ℕ) (outside : Bool)
  | resume (idx inc : ℕ) (outside : Bool) (deps : List ℕ) (minDep : Option ℕ)
  | decreaseExecution (idx inc : ℕ) (outside : Bool) (target : ℕ)
  | countExecution (idx inc : ℕ) (outside : Bool)
  | compareValidation (idx inc : ℕ) (outside : Bool)
  | decreaseValidation (idx : ℕ)
  | countValidation
  -- `validate_one`
  | validate (idx inc : ℕ)
  | validateReads (idx inc : ℕ) (rest : List (ReadDescriptor K))
  | tryAbort (idx inc : ℕ)
  | writeSet (idx inc : ℕ)
  | markEstimates (idx inc : ℕ) (rest : List K)
  -- `finish_abort`
  | setAborted (idx inc : ℕ)
  | abortValidation (idx : ℕ)
  | abortCountValidation (idx : ℕ)
  | abortExecution (idx : ℕ)
  | abortIncarnate (idx : ℕ)
  -- `Done`
  | finished

variable {T K V O E : Type}

/-- The scheduling decision at the end of an iteration of `next_task`. -/
def scheduleNext (idxToValidate idxToExecute : ℕ) : Pc K V O E :=
  if idxToValidate < idxToExecute then .validateLoad .retry else .executeLoad

/-- Where a worker goes on in `next_task`. -/
def Resume.pc : Resume → Pc K V O E
  | .retry => .nextTask
  | .schedule idxToValidate idxToExecute => scheduleNext idxToValidate idxToExecute

/-- `next_task` once both indices are loaded: under backpressure only
validation is tried, at a boundary between segments it is tried first. -/
def afterLoads (cfg : Setup T K V O E) (idxToValidate idxToExecute : ℕ) :
    Move K V O E × Pc K V O E :=
  if cfg.backpressured idxToValidate idxToExecute then (.countWait, .validateLoad .retry)
  else if cfg.throttled idxToValidate idxToExecute then
    (.idle, .validateLoad (.schedule idxToValidate idxToExecute))
  else (.idle, scheduleNext idxToValidate idxToExecute)

/-- The element of a hash set that the iterator yields first. -/
def pick {α : Type} (choice : ℕ) (l : List α) : Option α := l[choice % l.length]?

/-- A hash set without one of its elements. -/
def without {α : Type} [DecidableEq α] (a : α) (l : List α) : List α := l.filter fun b => b ≠ a

/-- The running minimum of `finish_execution`. -/
def minWith (dep : ℕ) : Option ℕ → ℕ
  | none => dep
  | some m => min m dep

/-- The result `execute_one` records for a status. -/
def recorded : ExecutionStatus O E → ExecutionStatus O (Error E)
  | .success output => .success output
  | .skipRest output => .skipRest output
  | .abort err => .abort (.userError err)

/-- `set_stop_idx(idx + 1)` for a status other than `Success`. -/
def stopMove (sh : Shared K V O E) (idx : ℕ) : ExecutionStatus O E → Move K V O E
  | .success _ => .idle
  | .skipRest _ => .setStopIdx (min sh.stopIdx (idx + 1))
  | .abort _ => .setStopIdx (min sh.stopIdx (idx + 1))

variable [DecidableEq K]

/-- `execute_one` starts to run the transaction. -/
def startBody (cfg : Setup T K V O E) (idx inc : ℕ) : Option (Move K V O E × Pc K V O E) :=
  match cfg.block[idx]? with
  | some txn => some (.idle, .body idx inc [] false (cfg.task.executeTransaction txn))
  | none => none

/-- One iteration of `MVHashMapView::read`, or the end of the transaction's
run. A read of an estimate registers a dependency the first time and is an
error from then on. -/
def planBody (sh : Shared K V O E) (idx inc : ℕ) (reads : List (ReadDescriptor K))
    (dependency : Bool) :
    Body K V (ExecutionStatus O E) → Option (Move K V O E × Pc K V O E)
  | .ret status =>
      some (.idle, if dependency then .dropGuard .retry else .prevWrites idx inc reads status)
  | .fault => none
  | .read key next =>
      match sh.data.read key idx with
      | .ok ((j, i), v) =>
          some (.idle, .body idx inc (reads ++ [⟨key, .mvHashMap j i⟩]) dependency
            (next (.ok (some v))))
      | .error none =>
          some (.idle, .body idx inc (reads ++ [⟨key, .storage⟩]) dependency (next (.ok none)))
      | .error (some dep) =>
          if dependency then some (.idle, .body idx inc reads dependency (next .err))
          else some (.idle, .readDep idx inc reads dep key next)

/-- The first half of `try_add_dependency`: wait for the mutex of
`txn_dependency[dep]`, then go to `executed` without it if the dependency has
been executed, and to `push` with it otherwise. -/
def planDependency (cfg : Setup T K V O E) (sh : Shared K V O E) (dep : ℕ)
    (here executed push : Pc K V O E) : Option (Move K V O E × Pc K V O E) :=
  if sh.depLocked dep then some (.idle, here)
  else
    match sh.isExecuted cfg dep with
    | some _ => some (.idle, executed)
    | none => some (.lockDependency dep, push)

/-- The operation of a worker's next step, and its program counter after it. -/
def plan (cfg : Setup T K V O E) (choice : ℕ) (sh : Shared K V O E) :
    Pc K V O E → Option (Move K V O E × Pc K V O E)
  | .nextTask => some (.idle, if sh.doneMarker then .finished else .loadValidation)
  | .loadValidation => some (.idle, .loadExecution sh.validationIdx)
  | .loadExecution idxToValidate => some (afterLoads cfg idxToValidate sh.executionIdx)
  | .validateLoad k => some (.idle, .validateStop k sh.validationIdx)
  | .validateStop k idx =>
      some (.idle, if sh.stopIdx ≤ idx then .doneCnt k sh.stopIdx else .validateGuard k)
  | .validateGuard k => some (.takeGuard, .validateFetch k)
  | .validateFetch k =>
      some (.setValidationIdx (sh.validationIdx + 1), .validateCheck k sh.validationIdx)
  | .validateCheck k idx =>
      match sh.isExecuted cfg idx with
      | some inc => some (.idle, .validate idx inc)
      | none => some (.idle, .dropGuard k)
  | .executeLoad => some (.idle, .executeStop sh.executionIdx)
  | .executeStop idx =>
      some (.idle, if sh.stopIdx ≤ idx then .doneCnt .retry sh.stopIdx else .executeGuard)
  | .executeGuard => some (.takeGuard, .executeFetch)
  | .executeFetch =>
      some (.setExecutionIdx (sh.executionIdx + 1), .executeIncarnate sh.executionIdx)
  | .executeIncarnate idx =>
      match sh.tryIncarnate cfg idx with
      | some inc => some (.setStatus idx (.executing inc), .readSet idx inc)
      | none => some (.idle, .dropGuard .retry)
  | .doneCnt k num => some (.idle, .doneValidation k num sh.decreaseCnt)
  | .doneValidation k num observed => some (.idle, .doneExecution k num observed sh.validationIdx)
  | .doneExecution k num observed valIdx =>
      some (.idle, .doneTasks k num observed valIdx sh.executionIdx)
  | .doneTasks k num observed valIdx execIdx =>
      some (.idle, if min execIdx valIdx < num ∨ 0 < sh.numActiveTasks then k.pc
        else .doneAgain k num observed)
  | .doneAgain k num observed =>
      some (.idle, if observed = sh.decreaseCnt then .doneStore k num else k.pc)
  | .doneStore k _ => some (.storeDone, k.pc)
  | .dropGuard k => if sh.numActiveTasks = 0 then none else some (.dropGuard, k.pc)
  | .readSet idx inc =>
      match sh.inputs idx with
      | some reads => some (.idle, .precheck idx inc reads)
      | none => startBody cfg idx inc
  | .precheck idx inc rest =>
      match rest with
      | [] => startBody cfg idx inc
      | r :: rest =>
          match sh.data.read r.accessPath idx with
          | .error (some dep) => some (.idle, .precheckDep idx inc dep rest)
          | _ => some (.idle, .precheck idx inc rest)
  | .precheckDep idx inc dep rest =>
      planDependency cfg sh dep (.precheckDep idx inc dep rest) (.precheck idx inc rest)
        (.precheckPush idx inc dep)
  | .precheckPush idx _ dep =>
      some (.setDependency dep (sh.txnDependency dep ++ [idx]), .dropGuard .retry)
  | .body idx inc reads dependency rest => planBody sh idx inc reads dependency rest
  | .readDep idx inc reads dep key next =>
      planDependency cfg sh dep (.readDep idx inc reads dep key next)
        (.body idx inc reads false (.read key next)) (.readPush idx inc reads dep next)
  | .readPush idx inc reads dep next =>
      some (.setDependency dep (sh.txnDependency dep ++ [idx]),
        .body idx inc reads true (next .err))
  | .prevWrites idx inc reads status =>
      some (.idle, .applyWrites idx inc reads status (cfg.task.writesOf status)
        (sh.writeSet cfg idx) false)
  | .applyWrites idx inc reads status writes prev outside =>
      match writes with
      | [] => some (stopMove sh idx status, .deletes idx inc reads status prev outside)
      | (k, v) :: writes =>
          match sh.data.write k (idx, inc) v with
          | (data, true) => some (.setData data, .applyWrites idx inc reads status writes
              (without k prev) (outside || decide (k ∉ prev)))
          | (data, false) => some (.setData data, .writeFailed idx inc)
  -- the assertion of `MVHashMap::write` fails once the cell is in the map
  | .writeFailed _ _ => none
  | .deletes idx inc reads status prev outside =>
      match pick choice prev with
      | none => some (.idle, .recordInput idx inc reads status outside)
      | some k =>
          match sh.data.delete k idx with
          | some data => some (.setData data, .deletes idx inc reads status (without k prev) outside)
          | none => none
  | .recordInput idx inc reads status outside =>
      some (.setInput idx reads, .recordOutput idx inc status outside)
  | .recordOutput idx inc status outside =>
      some (.setOutput idx (recorded status), .setExecuted idx inc outside)
  | .setExecuted idx inc outside =>
      if sh.txnStatus idx = .executing inc then
        some (.setStatus idx (.executed inc), .takeDeps idx inc outside)
      else none
  | .takeDeps idx inc outside =>
      if sh.depLocked idx then some (.idle, .takeDeps idx inc outside)
      else some (.setDependency idx [], .resume idx inc outside (sh.txnDependency idx) none)
  | .resume idx inc outside deps minDep =>
      match deps with
      | dep :: deps =>
          match sh.txnStatus dep with
          | .executing i => some (.setStatus dep (.readyToExecute (i + 1)),
              .resume idx inc outside deps (some (minWith dep minDep)))
          | _ => none
      | [] =>
          match minDep with
          | some target => some (.idle, .decreaseExecution idx inc outside target)
          | none => some (.idle, .compareValidation idx inc outside)
  | .decreaseExecution idx inc outside target =>
      some (.setExecutionIdx (min sh.executionIdx target),
        if target < sh.executionIdx then .countExecution idx inc outside
        else .compareValidation idx inc outside)
  | .countExecution idx inc outside => some (.countDecrease, .compareValidation idx inc outside)
  | .compareValidation idx inc outside =>
      some (.idle, if idx < sh.validationIdx then
          (if outside then .decreaseValidation idx else .validate idx inc)
        else .dropGuard .retry)
  | .decreaseValidation idx =>
      some (.setValidationIdx (min sh.validationIdx idx),
        if idx < sh.validationIdx then .countValidation else .dropGuard .retry)
  | .countValidation => some (.countDecrease, .dropGuard .retry)
  | .validate idx inc =>
      match sh.inputs idx with
      | some reads => some (.idle, .validateReads idx inc reads)
      | none => none
  | .validateReads idx inc rest =>
      match rest with
      | [] => some (.idle, .dropGuard .retry)
      | r :: rest =>
          some (.idle, if r.isValid sh.data idx then .validateReads idx inc rest
            else .tryAbort idx inc)
  | .tryAbort idx inc =>
      if sh.txnStatus idx = .executed inc then
        some (.setStatus idx (.aborting inc), .writeSet idx inc)
      else some (.idle, .dropGuard .retry)
  | .writeSet idx inc => some (.idle, .markEstimates idx inc (sh.writeSet cfg idx))
  | .markEstimates idx inc rest =>
      match pick choice rest with
      | none => some (.countAbort, .setAborted idx inc)
      | some k =>
          match sh.data.markEstimate k idx with
          | some data => some (.setData data, .markEstimates idx inc (without k rest))
          | none => none
  | .setAborted idx inc =>
      if sh.txnStatus idx = .aborting inc then
        some (.setStatus idx (.readyToExecute (inc + 1)), .abortValidation idx)
      else none
  | .abortValidation idx =>
      some (.setValidationIdx (min sh.validationIdx (idx + 1)),
        if idx + 1 < sh.validationIdx then .abortCountValidation idx else .abortExecution idx)
  | .abortCountValidation idx => some (.countDecrease, .abortExecution idx)
  | .abortExecution idx =>
      some (.idle, if idx < sh.executionIdx then .abortIncarnate idx else .dropGuard .retry)
  | .abortIncarnate idx =>
      match sh.tryIncarnate cfg idx with
      | some inc => some (.setStatus idx (.executing inc), .readSet idx inc)
      | none => some (.idle, .dropGuard .retry)
  | .finished => some (.idle, .finished)

/-- The LEAP workers as a machine: a step performs the planned operation. -/
def leap (cfg : Setup T K V O E) : Machine (Shared K V O E) (Pc K V O E) ℕ where
  next choice sh p := (plan cfg choice sh p).map fun next => (next.1.perform sh, next.2)
  unwind sh := Move.dropGuard.perform sh

/-- The state of `m` workers and what they share. -/
abbrev LeapState (m : ℕ) (K V O E : Type) : Type :=
  Global (Fin m) (Shared K V O E) (Pc K V O E)

/-- The state in which the workers are spawned. -/
def LeapState.initial (cfg : Setup T K V O E) (m : ℕ) : LeapState m K V O E :=
  ⟨Shared.initial cfg, fun _ => ⟨.nextTask, false⟩⟩

/-- The state after the workers have stepped in the given order. -/
def leapRun (cfg : Setup T K V O E) {m : ℕ} (acts : List (Fin m × ℕ)) : LeapState m K V O E :=
  (leap cfg).run acts (LeapState.initial cfg m)

/-! ### The result of a run -/

/-- The worker has received `Done`. -/
def Pc.isFinished : Pc K V O E → Bool
  | .finished => true
  | _ => false

/-- Every worker has received `Done`, so the scope of the thread pool ends. -/
def LeapState.AllDone {m : ℕ} (s : LeapState m K V O E) : Prop :=
  ∀ w, (s.worker w).pc.isFinished = true ∧ (s.worker w).panicked = false

instance {m : ℕ} (s : LeapState m K V O E) : Decidable s.AllDone :=
  inferInstanceAs (Decidable (∀ _w, _))

/-- The loop of `OutcomeArray::get_all_results`, from result `idx` on. -/
def collectResults (stopAt : ℕ) :
    ℕ → List (Option (ExecutionStatus O (Error E))) → Except (Error E) (List O)
  | _, [] => .ok []
  | idx, result :: rest =>
      match result with
      | some (.success t) => (collectResults stopAt (idx + 1) rest).map (t :: ·)
      | some (.skipRest t) =>
          if idx = stopAt - 1 then (collectResults stopAt (idx + 1) rest).map (t :: ·)
          else .error .invariantViolation
      | some (.abort err) => .error err
      | none => .error .invariantViolation

/-- `OutcomeArray::get_all_results`; `none` if its assertion fails. -/
def getAllResults (task : ExecutorTask T K V O E) (stopAt : ℕ)
    (results : List (Option (ExecutionStatus O (Error E)))) : Option (Except (Error E) (List O)) :=
  match collectResults stopAt 0 (results.take stopAt) with
  | .error err => some (.error err)
  | .ok outputs =>
      if outputs.length = stopAt then
        some (.ok (outputs.take results.length ++
          List.replicate (results.length - outputs.length) task.skipOutput))
      else none

/-- The outputs `take_output` moves into the outcome array: those below the
stop index, `none` as a whole if one of them was never recorded. -/
def takeOutputs (cfg : Setup T K V O E) (sh : Shared K V O E) :
    Option (List (Option (ExecutionStatus O (Error E)))) :=
  if ∀ idx < sh.stopIdx, (sh.outputs idx).isSome then
    some ((List.range cfg.numTxns).map fun idx => if idx < sh.stopIdx then sh.outputs idx else none)
  else none

/-- `execute_transactions_parallel` on `m` workers that step in the given
order. `none` if not every worker has received `Done`, or on a panic. -/
def executeTransactionsParallel (cfg : Setup T K V O E) (m : ℕ) (acts : List (Fin m × ℕ)) :
    Option (Except (Error E) (List O)) :=
  if cfg.block = [] then some (.ok [])
  else
    let s := leapRun cfg acts
    if s.AllDone then
      match takeOutputs cfg s.shared with
      | some results => getAllResults cfg.task s.shared.stopIdx results
      | none => none
    else none

/-- A block of two transactions, each of which increments a counter. -/
def counterBlock : Setup Unit Unit ℕ ℕ Unit where
  task :=
    { executeTransaction := fun _ => .read () fun r =>
        match r with
        | .ok (some v) => .ret (.success (v + 1))
        | _ => .ret (.success 1)
      getWrites := fun o => [((), o)]
      skipOutput := 0 }
  block := [(), ()]
  backpressureWindow := 0
  segmentBounds := []
  txnToSegment := []

end StablecoinSystem
