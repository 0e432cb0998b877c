import StablecoinSystem.Leap.Worker

/-!
What one step of a LEAP worker can do.

`Step cfg sh p mv p'` lists the branches of `plan`: a worker at `p` performs
`mv` on the shared state `sh` and goes to `p'`, with what the branch has tested.
`step_of_plan` says that the list is complete. The invariants of the executor
are proved from the list, by the kind of the move. `Transition` lists what a
step can do to the status of one transaction.
-/

namespace StablecoinSystem

variable {T K V O E : Type} [DecidableEq K]

/-- The branches of `plan`. -/
inductive Step (cfg : Setup T K V O E) (sh : Shared K V O E) :
    Pc K V O E → Move K V O E → Pc K V O E → Prop where
  -- `next_task`
  | done (h : sh.doneMarker = true) : Step cfg sh .nextTask .idle .finished
  | notDone (h : sh.doneMarker = false) : Step cfg sh .nextTask .idle .loadValidation
  | loadValidation : Step cfg sh .loadValidation .idle (.loadExecution sh.validationIdx)
  | backpressure {v : ℕ} : Step cfg sh (.loadExecution v) .countWait (.validateLoad .retry)
  | throttle {v : ℕ} :
      Step cfg sh (.loadExecution v) .idle (.validateLoad (.schedule v sh.executionIdx))
  | schedule {v : ℕ} :
      Step cfg sh (.loadExecution v) .idle (Resume.schedule v sh.executionIdx).pc
  -- `try_validate_next_version`
  | validateLoad {k : Resume} :
      Step cfg sh (.validateLoad k) .idle (.validateStop k sh.validationIdx)
  | validateExhausted {k : Resume} {idx : ℕ} :
      Step cfg sh (.validateStop k idx) .idle (.doneCnt k sh.stopIdx)
  | validateBelow {k : Resume} {idx : ℕ} :
      Step cfg sh (.validateStop k idx) .idle (.validateGuard k)
  | validateGuard {k : Resume} : Step cfg sh (.validateGuard k) .takeGuard (.validateFetch k)
  | validateFetch {k : Resume} : Step cfg sh (.validateFetch k)
      (.setValidationIdx (sh.validationIdx + 1)) (.validateCheck k sh.validationIdx)
  | validateTask {k : Resume} {idx inc : ℕ} (hidx : idx < cfg.numTxns)
      (h : sh.txnStatus idx = .executed inc) :
      Step cfg sh (.validateCheck k idx) .idle (.validate idx inc)
  | validateNone {k : Resume} {idx : ℕ}
      (h : idx < cfg.numTxns → ∀ inc, sh.txnStatus idx ≠ .executed inc) :
      Step cfg sh (.validateCheck k idx) .idle (.dropGuard k)
  -- `try_execute_next_version`
  | executeLoad : Step cfg sh .executeLoad .idle (.executeStop sh.executionIdx)
  | executeExhausted {idx : ℕ} : Step cfg sh (.executeStop idx) .idle (.doneCnt .retry sh.stopIdx)
  | executeBelow {idx : ℕ} : Step cfg sh (.executeStop idx) .idle .executeGuard
  | executeGuard : Step cfg sh .executeGuard .takeGuard .executeFetch
  | executeFetch : Step cfg sh .executeFetch
      (.setExecutionIdx (sh.executionIdx + 1)) (.executeIncarnate sh.executionIdx)
  | incarnate {idx inc : ℕ} (hidx : idx < cfg.numTxns)
      (h : sh.txnStatus idx = .readyToExecute inc) :
      Step cfg sh (.executeIncarnate idx) (.setStatus idx (.executing inc)) (.readSet idx inc)
  | incarnateNone {idx : ℕ}
      (h : idx < cfg.numTxns → ∀ inc, sh.txnStatus idx ≠ .readyToExecute inc) :
      Step cfg sh (.executeIncarnate idx) .idle (.dropGuard .retry)
  -- `check_done`
  | doneCnt {k : Resume} {num : ℕ} :
      Step cfg sh (.doneCnt k num) .idle (.doneValidation k num sh.decreaseCnt)
  | doneValidation {k : Resume} {num observed : ℕ} : Step cfg sh (.doneValidation k num observed)
      .idle (.doneExecution k num observed sh.validationIdx)
  | doneExecution {k : Resume} {num observed valIdx : ℕ} :
      Step cfg sh (.doneExecution k num observed valIdx) .idle
        (.doneTasks k num observed valIdx sh.executionIdx)
  | doneTasksNo {k : Resume} {num observed valIdx execIdx : ℕ} :
      Step cfg sh (.doneTasks k num observed valIdx execIdx) .idle k.pc
  | doneTasks {k : Resume} {num observed valIdx execIdx : ℕ} (hval : num ≤ valIdx)
      (hexec : num ≤ execIdx) (h : sh.numActiveTasks = 0) :
      Step cfg sh (.doneTasks k num observed valIdx execIdx) .idle (.doneAgain k num observed)
  | doneAgainNo {k : Resume} {num observed : ℕ} :
      Step cfg sh (.doneAgain k num observed) .idle k.pc
  | doneAgain {k : Resume} {num observed : ℕ} (h : observed = sh.decreaseCnt) :
      Step cfg sh (.doneAgain k num observed) .idle (.doneStore k num)
  | doneStore {k : Resume} {num : ℕ} : Step cfg sh (.doneStore k num) .storeDone k.pc
  | dropGuard {k : Resume} (h : sh.numActiveTasks ≠ 0) :
      Step cfg sh (.dropGuard k) .dropGuard k.pc
  -- `execute_one`, the check of the previous incarnation's reads
  | readSet {idx inc : ℕ} {reads : List (ReadDescriptor K)} (h : sh.inputs idx = some reads) :
      Step cfg sh (.readSet idx inc) .idle (.precheck idx inc reads)
  | readSetNone {idx inc : ℕ} {txn : T} (h : cfg.block[idx]? = some txn) :
      Step cfg sh (.readSet idx inc) .idle
        (.body idx inc [] false (cfg.task.executeTransaction txn))
  | precheckEnd {idx inc : ℕ} {txn : T} (h : cfg.block[idx]? = some txn) :
      Step cfg sh (.precheck idx inc []) .idle
        (.body idx inc [] false (cfg.task.executeTransaction txn))
  | precheckOk {idx inc : ℕ} {r : ReadDescriptor K} {rest : List (ReadDescriptor K)} :
      Step cfg sh (.precheck idx inc (r :: rest)) .idle (.precheck idx inc rest)
  | precheckEstimate {idx inc dep : ℕ} {r : ReadDescriptor K} {rest : List (ReadDescriptor K)}
      (h : sh.data.read r.accessPath idx = .error (some dep)) :
      Step cfg sh (.precheck idx inc (r :: rest)) .idle (.precheckDep idx inc dep rest)
  | precheckWait {idx inc dep : ℕ} {rest : List (ReadDescriptor K)} :
      Step cfg sh (.precheckDep idx inc dep rest) .idle (.precheckDep idx inc dep rest)
  | precheckExecuted {idx inc dep : ℕ} {rest : List (ReadDescriptor K)} :
      Step cfg sh (.precheckDep idx inc dep rest) .idle (.precheck idx inc rest)
  | precheckLock {idx inc dep : ℕ} {rest : List (ReadDescriptor K)}
      (hlock : sh.depLocked dep = false)
      (h : dep < cfg.numTxns → ∀ i, sh.txnStatus dep ≠ .executed i) :
      Step cfg sh (.precheckDep idx inc dep rest) (.lockDependency dep) (.precheckPush idx inc dep)
  | precheckPush {idx inc dep : ℕ} : Step cfg sh (.precheckPush idx inc dep)
      (.setDependency dep (sh.txnDependency dep ++ [idx])) (.dropGuard .retry)
  -- `execute_one`, the run of the transaction
  | bodyDependent {idx inc : ℕ} {reads : List (ReadDescriptor K)} {status : ExecutionStatus O E} :
      Step cfg sh (.body idx inc reads true (.ret status)) .idle (.dropGuard .retry)
  | bodyEnd {idx inc : ℕ} {reads : List (ReadDescriptor K)} {status : ExecutionStatus O E} :
      Step cfg sh (.body idx inc reads false (.ret status)) .idle
        (.prevWrites idx inc reads status)
  | bodyVersion {idx inc : ℕ} {reads : List (ReadDescriptor K)} {dependency : Bool} {key : K}
      {next : ReadResult V → Body K V (ExecutionStatus O E)} {j i : ℕ} {v : V}
      (h : sh.data.read key idx = .ok ((j, i), v)) :
      Step cfg sh (.body idx inc reads dependency (.read key next)) .idle
        (.body idx inc (reads ++ [⟨key, .mvHashMap j i⟩]) dependency (next (.ok (some v))))
  | bodyStorage {idx inc : ℕ} {reads : List (ReadDescriptor K)} {dependency : Bool} {key : K}
      {next : ReadResult V → Body K V (ExecutionStatus O E)}
      (h : sh.data.read key idx = .error none) :
      Step cfg sh (.body idx inc reads dependency (.read key next)) .idle
        (.body idx inc (reads ++ [⟨key, .storage⟩]) dependency (next (.ok none)))
  | bodyError {idx inc : ℕ} {reads : List (ReadDescriptor K)} {key : K}
      {next : ReadResult V → Body K V (ExecutionStatus O E)} :
      Step cfg sh (.body idx inc reads true (.read key next)) .idle
        (.body idx inc reads true (next .err))
  | bodyEstimate {idx inc : ℕ} {reads : List (ReadDescriptor K)} {key : K} {dep : ℕ}
      {next : ReadResult V → Body K V (ExecutionStatus O E)}
      (h : sh.data.read key idx = .error (some dep)) :
      Step cfg sh (.body idx inc reads false (.read key next)) .idle
        (.readDep idx inc reads dep key next)
  | readWait {idx inc : ℕ} {reads : List (ReadDescriptor K)} {key : K} {dep : ℕ}
      {next : ReadResult V → Body K V (ExecutionStatus O E)} :
      Step cfg sh (.readDep idx inc reads dep key next) .idle
        (.readDep idx inc reads dep key next)
  | readExecuted {idx inc : ℕ} {reads : List (ReadDescriptor K)} {key : K} {dep : ℕ}
      {next : ReadResult V → Body K V (ExecutionStatus O E)} :
      Step cfg sh (.readDep idx inc reads dep key next) .idle
        (.body idx inc reads false (.read key next))
  | readLock {idx inc : ℕ} {reads : List (ReadDescriptor K)} {key : K} {dep : ℕ}
      {next : ReadResult V → Body K V (ExecutionStatus O E)} (hlock : sh.depLocked dep = false)
      (h : dep < cfg.numTxns → ∀ i, sh.txnStatus dep ≠ .executed i) :
      Step cfg sh (.readDep idx inc reads dep key next) (.lockDependency dep)
        (.readPush idx inc reads dep next)
  | readPush {idx inc : ℕ} {reads : List (ReadDescriptor K)} {dep : ℕ}
      {next : ReadResult V → Body K V (ExecutionStatus O E)} :
      Step cfg sh (.readPush idx inc reads dep next)
        (.setDependency dep (sh.txnDependency dep ++ [idx])) (.body idx inc reads true (next .err))
  -- `execute_one`, its effects
  | prevWrites {idx inc : ℕ} {reads : List (ReadDescriptor K)} {status : ExecutionStatus O E} :
      Step cfg sh (.prevWrites idx inc reads status) .idle
        (.applyWrites idx inc reads status (cfg.task.writesOf status) (sh.writeSet cfg idx) false)
  | applyWrite {idx inc : ℕ} {reads : List (ReadDescriptor K)} {status : ExecutionStatus O E}
      {k : K} {v : V} {writes : List (K × V)} {prev : List K} {outside : Bool}
      {data : MVHashMap K V} (h : sh.data.write k (idx, inc) v = (data, true)) :
      Step cfg sh (.applyWrites idx inc reads status ((k, v) :: writes) prev outside)
        (.setData data)
        (.applyWrites idx inc reads status writes (without k prev) (outside || decide (k ∉ prev)))
  | writeFailed {idx inc : ℕ} {reads : List (ReadDescriptor K)} {status : ExecutionStatus O E}
      {k : K} {v : V} {writes : List (K × V)} {prev : List K} {outside : Bool}
      {data : MVHashMap K V} (h : sh.data.write k (idx, inc) v = (data, false)) :
      Step cfg sh (.applyWrites idx inc reads status ((k, v) :: writes) prev outside)
        (.setData data) (.writeFailed idx inc)
  | applied {idx inc : ℕ} {reads : List (ReadDescriptor K)} {output : O} {prev : List K}
      {outside : Bool} :
      Step cfg sh (.applyWrites idx inc reads (.success output) [] prev outside) .idle
        (.deletes idx inc reads (.success output) prev outside)
  | appliedStop {idx inc : ℕ} {reads : List (ReadDescriptor K)} {status : ExecutionStatus O E}
      {prev : List K} {outside : Bool} (h : ∀ output, status ≠ .success output) :
      Step cfg sh (.applyWrites idx inc reads status [] prev outside)
        (.setStopIdx (min sh.stopIdx (idx + 1))) (.deletes idx inc reads status prev outside)
  | delete {idx inc : ℕ} {reads : List (ReadDescriptor K)} {status : ExecutionStatus O E} {k : K}
      {prev : List K} {outside : Bool} {data : MVHashMap K V} (hk : k ∈ prev)
      (h : sh.data.delete k idx = some data) :
      Step cfg sh (.deletes idx inc reads status prev outside) (.setData data)
        (.deletes idx inc reads status (without k prev) outside)
  | deleted {idx inc : ℕ} {reads : List (ReadDescriptor K)} {status : ExecutionStatus O E}
      {outside : Bool} : Step cfg sh (.deletes idx inc reads status [] outside) .idle
        (.recordInput idx inc reads status outside)
  | recordInput {idx inc : ℕ} {reads : List (ReadDescriptor K)} {status : ExecutionStatus O E}
      {outside : Bool} : Step cfg sh (.recordInput idx inc reads status outside)
        (.setInput idx reads) (.recordOutput idx inc status outside)
  | recordOutput {idx inc : ℕ} {status : ExecutionStatus O E} {outside : Bool} :
      Step cfg sh (.recordOutput idx inc status outside) (.setOutput idx (recorded status))
        (.setExecuted idx inc outside)
  -- `finish_execution`
  | setExecuted {idx inc : ℕ} {outside : Bool} (h : sh.txnStatus idx = .executing inc) :
      Step cfg sh (.setExecuted idx inc outside) (.setStatus idx (.executed inc))
        (.takeDeps idx inc outside)
  | takeWait {idx inc : ℕ} {outside : Bool} (h : sh.depLocked idx = true) :
      Step cfg sh (.takeDeps idx inc outside) .idle (.takeDeps idx inc outside)
  | takeDeps {idx inc : ℕ} {outside : Bool} (h : sh.depLocked idx = false) :
      Step cfg sh (.takeDeps idx inc outside) (.setDependency idx [])
        (.resume idx inc outside (sh.txnDependency idx) none)
  | resume {idx inc : ℕ} {outside : Bool} {dep i : ℕ} {deps : List ℕ} {minDep : Option ℕ}
      (h : sh.txnStatus dep = .executing i) :
      Step cfg sh (.resume idx inc outside (dep :: deps) minDep)
        (.setStatus dep (.readyToExecute (i + 1)))
        (.resume idx inc outside deps (some (minWith dep minDep)))
  | resumedSome {idx inc : ℕ} {outside : Bool} {target : ℕ} :
      Step cfg sh (.resume idx inc outside [] (some target)) .idle
        (.decreaseExecution idx inc outside target)
  | resumedNone {idx inc : ℕ} {outside : Bool} :
      Step cfg sh (.resume idx inc outside [] none) .idle (.compareValidation idx inc outside)
  | decreaseExecution {idx inc : ℕ} {outside : Bool} {target : ℕ}
      (h : target < sh.executionIdx) :
      Step cfg sh (.decreaseExecution idx inc outside target)
        (.setExecutionIdx (min sh.executionIdx target)) (.countExecution idx inc outside)
  | keepExecution {idx inc : ℕ} {outside : Bool} {target : ℕ} (h : sh.executionIdx ≤ target) :
      Step cfg sh (.decreaseExecution idx inc outside target)
        (.setExecutionIdx (min sh.executionIdx target)) (.compareValidation idx inc outside)
  | countExecution {idx inc : ℕ} {outside : Bool} : Step cfg sh (.countExecution idx inc outside)
      .countDecrease (.compareValidation idx inc outside)
  | compareOutside {idx inc : ℕ} (h : idx < sh.validationIdx) :
      Step cfg sh (.compareValidation idx inc true) .idle (.decreaseValidation idx)
  | compareInside {idx inc : ℕ} (h : idx < sh.validationIdx) :
      Step cfg sh (.compareValidation idx inc false) .idle (.validate idx inc)
  | compareAhead {idx inc : ℕ} {outside : Bool} (h : sh.validationIdx ≤ idx) :
      Step cfg sh (.compareValidation idx inc outside) .idle (.dropGuard .retry)
  | decreaseValidation {idx : ℕ} (h : idx < sh.validationIdx) :
      Step cfg sh (.decreaseValidation idx) (.setValidationIdx (min sh.validationIdx idx))
        .countValidation
  | keepValidation {idx : ℕ} (h : sh.validationIdx ≤ idx) :
      Step cfg sh (.decreaseValidation idx) (.setValidationIdx (min sh.validationIdx idx))
        (.dropGuard .retry)
  | countValidation : Step cfg sh .countValidation .countDecrease (.dropGuard .retry)
  -- `validate_one`
  | validate {idx inc : ℕ} {reads : List (ReadDescriptor K)} (h : sh.inputs idx = some reads) :
      Step cfg sh (.validate idx inc) .idle (.validateReads idx inc reads)
  | allValid {idx inc : ℕ} : Step cfg sh (.validateReads idx inc []) .idle (.dropGuard .retry)
  | readValid {idx inc : ℕ} {r : ReadDescriptor K} {rest : List (ReadDescriptor K)}
      (h : r.isValid sh.data idx = true) :
      Step cfg sh (.validateReads idx inc (r :: rest)) .idle (.validateReads idx inc rest)
  | readInvalid {idx inc : ℕ} {r : ReadDescriptor K} {rest : List (ReadDescriptor K)}
      (h : ¬r.isValid sh.data idx = true) :
      Step cfg sh (.validateReads idx inc (r :: rest)) .idle (.tryAbort idx inc)
  | tryAbort {idx inc : ℕ} (h : sh.txnStatus idx = .executed inc) :
      Step cfg sh (.tryAbort idx inc) (.setStatus idx (.aborting inc)) (.writeSet idx inc)
  | abortLost {idx inc : ℕ} (h : sh.txnStatus idx ≠ .executed inc) :
      Step cfg sh (.tryAbort idx inc) .idle (.dropGuard .retry)
  | writeSet {idx inc : ℕ} : Step cfg sh (.writeSet idx inc) .idle
      (.markEstimates idx inc (sh.writeSet cfg idx))
  | markEstimate {idx inc : ℕ} {k : K} {rest : List K} {data : MVHashMap K V} (hk : k ∈ rest)
      (h : sh.data.markEstimate k idx = some data) :
      Step cfg sh (.markEstimates idx inc rest) (.setData data)
        (.markEstimates idx inc (without k rest))
  | marked {idx inc : ℕ} : Step cfg sh (.markEstimates idx inc []) .countAbort
      (.setAborted idx inc)
  -- `finish_abort`
  | setAborted {idx inc : ℕ} (h : sh.txnStatus idx = .aborting inc) :
      Step cfg sh (.setAborted idx inc) (.setStatus idx (.readyToExecute (inc + 1)))
        (.abortValidation idx)
  | abortDecrease {idx : ℕ} (h : idx + 1 < sh.validationIdx) :
      Step cfg sh (.abortValidation idx) (.setValidationIdx (min sh.validationIdx (idx + 1)))
        (.abortCountValidation idx)
  | abortKeep {idx : ℕ} (h : sh.validationIdx ≤ idx + 1) :
      Step cfg sh (.abortValidation idx) (.setValidationIdx (min sh.validationIdx (idx + 1)))
        (.abortExecution idx)
  | abortCount {idx : ℕ} : Step cfg sh (.abortCountValidation idx) .countDecrease
      (.abortExecution idx)
  | abortBehind {idx : ℕ} (h : idx < sh.executionIdx) :
      Step cfg sh (.abortExecution idx) .idle (.abortIncarnate idx)
  | abortAhead {idx : ℕ} (h : sh.executionIdx ≤ idx) :
      Step cfg sh (.abortExecution idx) .idle (.dropGuard .retry)
  | abortIncarnate {idx inc : ℕ} (hidx : idx < cfg.numTxns)
      (h : sh.txnStatus idx = .readyToExecute inc) :
      Step cfg sh (.abortIncarnate idx) (.setStatus idx (.executing inc)) (.readSet idx inc)
  | abortIncarnateNone {idx : ℕ}
      (h : idx < cfg.numTxns → ∀ inc, sh.txnStatus idx ≠ .readyToExecute inc) :
      Step cfg sh (.abortIncarnate idx) .idle (.dropGuard .retry)
  | finished : Step cfg sh .finished .idle .finished

/-! ### The list is complete -/

section

variable {cfg : Setup T K V O E} {sh : Shared K V O E}

omit [DecidableEq K]

lemma isExecuted_eq_some {t i : ℕ} (h : sh.isExecuted cfg t = some i) :
    t < cfg.numTxns ∧ sh.txnStatus t = .executed i := by
  rw [Shared.isExecuted] at h
  split at h
  · cases h
  · rename_i hlt
    split at h
    · rename_i hstatus
      cases h
      exact ⟨by omega, hstatus⟩
    · cases h

lemma isExecuted_eq_none {t : ℕ} (h : sh.isExecuted cfg t = none) (ht : t < cfg.numTxns) (i : ℕ) :
    sh.txnStatus t ≠ .executed i := by
  intro hstatus
  rw [Shared.isExecuted, if_neg (by omega), hstatus] at h
  cases h

lemma tryIncarnate_eq_some {t i : ℕ} (h : sh.tryIncarnate cfg t = some i) :
    t < cfg.numTxns ∧ sh.txnStatus t = .readyToExecute i := by
  rw [Shared.tryIncarnate] at h
  split at h
  · cases h
  · rename_i hlt
    split at h
    · rename_i hstatus
      cases h
      exact ⟨by omega, hstatus⟩
    · cases h

lemma tryIncarnate_eq_none {t : ℕ} (h : sh.tryIncarnate cfg t = none) (ht : t < cfg.numTxns)
    (i : ℕ) : sh.txnStatus t ≠ .readyToExecute i := by
  intro hstatus
  rw [Shared.tryIncarnate, if_neg (by omega), hstatus] at h
  cases h

lemma pick_eq_some {α : Type} {c : ℕ} {l : List α} {a : α} (h : pick c l = some a) : a ∈ l :=
  List.mem_of_getElem? h

lemma pick_eq_none {α : Type} {c : ℕ} {l : List α} (h : pick c l = none) : l = [] := by
  rw [pick, List.getElem?_eq_none_iff] at h
  by_contra hne
  have hpos := List.length_pos_iff.mpr hne
  have hlt := Nat.mod_lt c hpos
  omega

@[simp] lemma mem_without {α : Type} [DecidableEq α] {a b : α} {l : List α} :
    b ∈ without a l ↔ b ∈ l ∧ b ≠ a := by
  simp [without]

end

/-- **The list of branches is complete.** -/
theorem step_of_plan {cfg : Setup T K V O E} {c : ℕ} {sh : Shared K V O E} {p p' : Pc K V O E}
    {mv : Move K V O E} (h : plan cfg c sh p = some (mv, p')) : Step cfg sh p mv p' := by
  cases p
  case' body idx inc reads dependency rest => cases dependency
  case' compareValidation idx inc outside => cases outside
  all_goals simp only [plan, planBody, planDependency, startBody, afterLoads, stopMove,
    Bool.false_eq_true, if_true, if_false] at h
  all_goals repeat' split at h
  all_goals cases h
  -- most branches test exactly what their constructor asks for
  all_goals try (constructor <;> first | done | assumption | omega)
  -- the rest test it through a lookup, a Boolean or an iterator
  · exact .notDone (Bool.eq_false_iff.mpr ‹_›)
  · rename_i hexec
    exact .validateTask (isExecuted_eq_some hexec).1 (isExecuted_eq_some hexec).2
  · rename_i hexec
    exact .validateNone fun hidx inc => isExecuted_eq_none hexec hidx inc
  · rename_i hinc
    exact .incarnate (tryIncarnate_eq_some hinc).1 (tryIncarnate_eq_some hinc).2
  · rename_i hinc
    exact .incarnateNone fun hidx inc => tryIncarnate_eq_none hinc hidx inc
  · rename_i hlock _ hexec
    exact .precheckLock (Bool.eq_false_iff.mpr hlock) fun hdep i => isExecuted_eq_none hexec hdep i
  · rename_i hlock _ hexec
    exact .readLock (Bool.eq_false_iff.mpr hlock) fun hdep i => isExecuted_eq_none hexec hdep i
  · exact .appliedStop fun _ heq => by cases heq
  · exact .appliedStop fun _ heq => by cases heq
  · rename_i hpick
    rw [pick_eq_none hpick]
    exact .deleted
  · rename_i hpick _ _ hdelete
    exact .delete (pick_eq_some hpick) hdelete
  · exact .takeDeps (Bool.eq_false_iff.mpr ‹_›)
  · rename_i hpick
    rw [pick_eq_none hpick]
    exact .marked
  · rename_i hpick _ _ hmark
    exact .markEstimate (pick_eq_some hpick) hmark
  · rename_i hinc
    exact .abortIncarnate (tryIncarnate_eq_some hinc).1 (tryIncarnate_eq_some hinc).2
  · rename_i hinc
    exact .abortIncarnateNone fun hidx inc => tryIncarnate_eq_none hinc hidx inc

/-! ### The status of a transaction -/

/-- What a step of a worker from the first to the second place does to the
status of `t`. -/
inductive Transition (cfg : Setup T K V O E) (t : ℕ) :
    Pc K V O E → Pc K V O E → TransactionStatus → TransactionStatus → Prop where
  | incarnate {p : Pc K V O E} {i : ℕ} (hp : p = .executeIncarnate t ∨ p = .abortIncarnate t)
      (ht : t < cfg.numTxns) :
      Transition cfg t p (.readSet t i) (.readyToExecute i) (.executing i)
  | setExecuted {i : ℕ} {outside : Bool} : Transition cfg t (.setExecuted t i outside)
      (.takeDeps t i outside) (.executing i) (.executed i)
  | resume {idx inc i : ℕ} {outside : Bool} {deps : List ℕ} {minDep : Option ℕ} :
      Transition cfg t (.resume idx inc outside (t :: deps) minDep)
        (.resume idx inc outside deps (some (minWith t minDep)))
        (.executing i) (.readyToExecute (i + 1))
  | tryAbort {i : ℕ} :
      Transition cfg t (.tryAbort t i) (.writeSet t i) (.executed i) (.aborting i)
  | setAborted {i : ℕ} : Transition cfg t (.setAborted t i) (.abortValidation t)
      (.aborting i) (.readyToExecute (i + 1))

/-- A step leaves the status of a transaction as it was, or is one of its
transitions. -/
lemma Step.transition {cfg : Setup T K V O E} {sh : Shared K V O E} {p p' : Pc K V O E}
    {mv : Move K V O E} (h : Step cfg sh p mv p') (t : ℕ) :
    (mv.perform sh).txnStatus t = sh.txnStatus t ∨
      ∃ st st', sh.txnStatus t = st ∧ (mv.perform sh).txnStatus t = st' ∧
        Transition cfg t p p' st st' := by
  cases mv with
  | setStatus t' st =>
      by_cases htt : t = t'
      · subst htt
        right
        have hnew : (Move.perform sh (.setStatus t st)).txnStatus t = st := Function.update_self ..
        rw [hnew]
        cases h with
        | incarnate hidx hstatus => exact ⟨_, _, hstatus, rfl, .incarnate (Or.inl rfl) hidx⟩
        | abortIncarnate hidx hstatus => exact ⟨_, _, hstatus, rfl, .incarnate (Or.inr rfl) hidx⟩
        | setExecuted hstatus => exact ⟨_, _, hstatus, rfl, .setExecuted⟩
        | resume hstatus => exact ⟨_, _, hstatus, rfl, .resume⟩
        | tryAbort hstatus => exact ⟨_, _, hstatus, rfl, .tryAbort⟩
        | setAborted hstatus => exact ⟨_, _, hstatus, rfl, .setAborted⟩
      · exact Or.inl (Function.update_of_ne htt _ _)
  | _ => exact Or.inl rfl

/-! ### Runs -/

omit [DecidableEq K] in
/-- A worker without a task goes on at the top of `next_task` or with one of
the two attempts to get a task. -/
lemma Resume.pc_induction {P : Pc K V O E → Prop} (hnext : P .nextTask)
    (hvalidate : P (.validateLoad .retry)) (hexecute : P .executeLoad) (k : Resume) : P k.pc := by
  cases k with
  | retry => exact hnext
  | schedule v e =>
      rw [Resume.pc, scheduleNext]
      split
      · exact hvalidate
      · exact hexecute

/-- A step of the machine performs one of the listed branches. -/
lemma exists_step_of_next {cfg : Setup T K V O E} {c : ℕ} {sh sh' : Shared K V O E}
    {p p' : Pc K V O E} (h : (leap cfg).next c sh p = some (sh', p')) :
    ∃ mv, Step cfg sh p mv p' ∧ sh' = mv.perform sh := by
  obtain ⟨⟨mv, q⟩, hplan, heq⟩ := Option.map_eq_some_iff.mp h
  obtain ⟨rfl, rfl⟩ := Prod.mk.inj heq
  exact ⟨mv, step_of_plan hplan, rfl⟩

/-- The invariant rule for the workers: what holds when they are spawned, and is
kept by every panic and by every branch from a state that meets `C`, holds
after every run all of whose states meet `C`. -/
theorem leapRun_induction_of {cfg : Setup T K V O E} {m : ℕ} {I C : LeapState m K V O E → Prop}
    (hinit : I (LeapState.initial cfg m))
    (hmove : ∀ (s : LeapState m K V O E) (w : Fin m) (mv : Move K V O E) (p' : Pc K V O E), I s →
      C s → (s.worker w).panicked = false → Step cfg s.shared (s.pc w) mv p' →
      I (s.move w (mv.perform s.shared) p'))
    (hpanic : ∀ (s : LeapState m K V O E) (w : Fin m), I s → (s.worker w).panicked = false →
      I (s.panic w (Move.dropGuard.perform s.shared)))
    (acts : List (Fin m × ℕ)) (hC : ∀ acts', acts' <+: acts → C (leapRun cfg acts')) :
    I (leapRun cfg acts) := by
  refine (leap cfg).run_induction_of ?_ (fun s w => hpanic s w) acts hinit hC
  intro s w c sh p hs hCs hcalm hnext
  obtain ⟨mv, hstep, rfl⟩ := exists_step_of_next hnext
  exact hmove s w mv p hs hCs hcalm hstep

/-- The rule for an invariant that every branch keeps. -/
theorem leapRun_induction {cfg : Setup T K V O E} {m : ℕ} {I : LeapState m K V O E → Prop}
    (hinit : I (LeapState.initial cfg m))
    (hmove : ∀ (s : LeapState m K V O E) (w : Fin m) (mv : Move K V O E) (p' : Pc K V O E), I s →
      (s.worker w).panicked = false → Step cfg s.shared (s.pc w) mv p' →
      I (s.move w (mv.perform s.shared) p'))
    (hpanic : ∀ (s : LeapState m K V O E) (w : Fin m), I s → (s.worker w).panicked = false →
      I (s.panic w (Move.dropGuard.perform s.shared)))
    (acts : List (Fin m × ℕ)) : I (leapRun cfg acts) :=
  leapRun_induction_of (C := fun _ => True) hinit (fun s w mv p' hs _ => hmove s w mv p' hs) hpanic
    acts fun _ _ => trivial

/-! ### Two workers -/

/-- The first of two workers. -/
def first : Fin 2 := 0

/-- The second of two workers. -/
def second : Fin 2 := 1

/-- The workers take turns. -/
def takeTurns (turns : ℕ) : List (Fin 2 × ℕ) :=
  (List.replicate turns [(first, 0), (second, 0)]).flatten

/-- The first worker has taken the first transaction of a block when the second worker
executes the second transaction. Then they take turns. -/
def race (turns : ℕ) : List (Fin 2 × ℕ) :=
  List.replicate 7 (first, 0) ++ List.replicate 25 (second, 0) ++ takeTurns turns

end StablecoinSystem
