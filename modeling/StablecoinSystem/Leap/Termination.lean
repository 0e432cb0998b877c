import StablecoinSystem.Leap.DataLayer
import StablecoinSystem.Leap.Outcome

/-!
Safety of termination detection.

For transactions that always succeed and never repeat a key in an output, no
worker panics (`calm_leapRun`), so the guards count every active task. When
`check_done` is about to store `done_marker`, the block is over (`BlockOver`):
every transaction is executed with valid reads, no worker has a task, nobody
waits, and no estimate is left.

* `Step.hasTask`: a worker gets a task for a transaction of the block only;
* `Closing`: a worker that has found no active task, and no decrease since, knows
  that nobody has one;
* `done_when_over`: the block is over when `done_marker` is stored, and stays so;
* `done_after_panic`: a worker that panics drops its guard, and the others may
  end the block without its transaction.
-/

namespace StablecoinSystem

variable {T K V O E : Type}

/-! ### Nobody panics -/

/-- The transaction that the worker runs will not fault. -/
def Pc.Faultless : Pc K V O E → Prop
  | .body _ _ _ _ rest => rest.Succeeds
  | .readDep _ _ _ _ _ next | .readPush _ _ _ _ next => ∀ r, (next r).Succeeds
  | _ => True

lemma faultless_resume (k : Resume) : (k.pc : Pc K V O E).Faultless :=
  k.pc_induction (P := Pc.Faultless) trivial trivial trivial

variable [DecidableEq K] {cfg : Setup T K V O E} {sh : Shared K V O E} {p p' : Pc K V O E}
  {mv : Move K V O E} {m : ℕ} {s : LeapState m K V O E} {w : Fin m}

lemma Step.faultless (hsucc : ∀ txn, (cfg.task.executeTransaction txn).Succeeds)
    (h : Step cfg sh p mv p') (hp : p.Faultless) : p'.Faultless := by
  cases h with
  | readSetNone hblock => exact hsucc _
  | precheckEnd hblock => exact hsucc _
  | bodyVersion hread => exact hp (.ok (some _))
  | bodyStorage hread => exact hp (.ok none)
  | bodyError => exact hp .err
  | bodyEstimate hread | readWait | readExecuted | readLock hlock hexec => exact hp
  | readPush => exact hp .err
  | schedule | doneTasksNo | doneAgainNo | doneStore | dropGuard hactive => exact faultless_resume _
  | _ => trivial

theorem faultless_leapRun (hsucc : ∀ txn, (cfg.task.executeTransaction txn).Succeeds)
    (acts : List (Fin m × ℕ)) (w : Fin m) : ((leapRun cfg acts).pc w).Faultless := by
  refine leapRun_induction (I := fun s => ∀ w, (s.pc w).Faultless) (fun _ => trivial) ?_ ?_ acts w
  · intro s w mv p' hs _ h
    exact Global.forall_pc_move (P := fun _ (p : Pc K V O E) => p.Faultless)
      (h.faultless hsucc (hs w)) fun w' _ => hs w'
  · intro s w hs _ w'
    rw [Global.pc_panic]
    exact hs w'

omit [DecidableEq K] in
lemma Waiting.exists_txn (hs : Waiting cfg s) {t i : ℕ} (h : (s.pc w).running = some (t, i)) :
    ∃ txn, cfg.block[t]? = some txn := by
  have hlt : t < cfg.block.length := hs.lt_of_executing ((hs.fits w).running t i h)
  exact ⟨cfg.block[t], List.getElem?_eq_getElem hlt⟩

omit [DecidableEq K] in
lemma isSome_startBody {t i : ℕ} {txn : T} (h : cfg.block[t]? = some txn) :
    (startBody cfg t i).isSome := by
  rw [startBody, h]
  rfl

omit [DecidableEq K] in
lemma isSome_planBody {t i : ℕ} {reads : List (ReadDescriptor K)} {dependency : Bool}
    {rest : Body K V (ExecutionStatus O E)} (h : rest.Succeeds) :
    (planBody sh t i reads dependency rest).isSome := by
  cases rest with
  | ret status => rfl
  | fault => exact absurd h id
  | read key next =>
      rw [planBody]
      split
      · rfl
      · rfl
      · split <;> rfl

omit [DecidableEq K] in
lemma isSome_planDependency (dep : ℕ) (here executed push : Pc K V O E) :
    (planDependency cfg sh dep here executed push).isSome := by
  rw [planDependency]
  split
  · rfl
  · split <;> rfl

/-- No step from a state that the workers reach without a panic is one. -/
lemma isSome_plan (hsucc : ∀ txn, (cfg.task.executeTransaction txn).Succeeds)
    (hwrites : cfg.DistinctWrites) (acts : List (Fin m × ℕ))
    (hcalm : (leapRun (m := m) cfg acts).Calm) (c : ℕ) :
    (plan cfg c (leapRun (m := m) cfg acts).shared ((leapRun cfg acts).pc w)).isSome := by
  have hwaiting := waiting_leapRun (m := m) cfg acts
  have hsound := sound_leapRun (m := m) cfg acts
  have hfaultless := faultless_leapRun hsucc acts w
  have hsafe := dataSafe_leapRun hwrites acts w
  have hfits := hwaiting.fits w
  have htxn {t i : ℕ} := hwaiting.exists_txn (w := w) (t := t) (i := i)
  -- A guard that is held counts as an active task, so dropping it cannot underflow.
  have hactive : ((leapRun cfg acts).pc w).guarded = true →
      (leapRun (m := m) cfg acts).shared.numActiveTasks ≠ 0 := fun hguarded hzero => by
    have hidle := (hsound.detection hcalm).unguarded_of_inactive hzero w
    rw [hguarded] at hidle
    cases hidle
  generalize (leapRun (m := m) cfg acts).shared = sh at *
  generalize (leapRun (m := m) cfg acts).pc w = p at *
  -- Each `expect`, `unwrap` and assertion of the source is one case; the others never stop.
  cases p with
  | dropGuard k => rw [plan, if_neg (hactive rfl)]; rfl
  | readSet t i =>
      rw [plan]
      split
      · rfl
      · obtain ⟨txn, hblock⟩ := htxn rfl
        exact isSome_startBody hblock
  | precheck t i rest =>
      cases rest with
      | nil =>
          obtain ⟨txn, hblock⟩ := htxn rfl
          exact isSome_startBody hblock
      | cons r rest => simp only [plan]; split <;> rfl
  | precheckDep t i dep rest => exact isSome_planDependency ..
  | readDep t i reads dep key next => exact isSome_planDependency ..
  | body t i reads dependency rest => exact isSome_planBody hfaultless
  | applyWrites t i reads status writes prev outside =>
      cases writes with
      | nil => rfl
      | cons kv writes => simp only [plan]; split <;> rfl
  | writeFailed t i => exact absurd hsafe id
  | deletes t i reads status prev outside =>
      simp only [plan]
      split
      · rfl
      · rename_i k hk
        obtain ⟨data, hdata⟩ := Option.isSome_iff_exists.mp (hsafe k (pick_eq_some hk))
        rw [hdata]
        rfl
  | setExecuted t i outside => rw [plan, if_pos (hfits.running t i rfl)]; rfl
  | resume t i outside deps minDep =>
      cases deps with
      | nil => cases minDep <;> rfl
      | cons dep deps =>
          obtain ⟨j, hj⟩ := hfits.drained dep List.mem_cons_self
          simp only [plan, hj]
          rfl
  | validate t i =>
      obtain ⟨reads, hreads⟩ := Option.isSome_iff_exists.mp hsafe
      simp only [plan, hreads]
      rfl
  | markEstimates t i rest =>
      simp only [plan]
      split
      · rfl
      · rename_i k hk
        obtain ⟨data, hdata⟩ := Option.isSome_iff_exists.mp (hsafe k (pick_eq_some hk))
        rw [hdata]
        rfl
  | setAborted t i => rw [plan, if_pos (hfits.aborting t i rfl)]; rfl
  | validateReads t i rest => cases rest <;> rfl
  | validateCheck k idx | executeIncarnate idx | abortIncarnate idx | takeDeps t i outside
  | tryAbort t i => simp only [plan]; split <;> rfl
  | _ => rfl

/-- **Nobody panics** on transactions that always succeed and never repeat a
key. -/
theorem calm_leapRun (hsucc : ∀ txn, (cfg.task.executeTransaction txn).Succeeds)
    (hwrites : cfg.DistinctWrites) (acts : List (Fin m × ℕ)) :
    (leapRun (m := m) cfg acts).Calm := by
  refine (leap cfg).calm_run (fun _ => rfl) acts fun acts w c hcalm => ?_
  have hplan := isSome_plan (w := w) hsucc hwrites acts hcalm c
  obtain ⟨next, hnext⟩ := Option.isSome_iff_exists.mp hplan
  change (Option.map _ (plan cfg c (leapRun cfg acts).shared ((leapRun cfg acts).pc w))).isSome
  rw [hnext]
  rfl

/-! ### Nobody has a task -/

namespace Pc

/-- The worker is about to store `done_marker`. -/
def storesDone : Pc K V O E → Bool
  | .doneStore _ _ => true
  | _ => false

/-- The worker has an execution or validation task: `next_task`,
`finish_execution` or `finish_abort` has handed it out and neither `execute_one`
nor `validate_one` has come to its end. A worker that has taken a guard and
fetched an index has no task yet. -/
def hasTask : Pc K V O E → Bool
  | .nextTask | .loadValidation | .loadExecution _ | .validateLoad _ | .validateStop _ _
  | .validateGuard _ | .validateFetch _ | .validateCheck _ _ | .executeLoad | .executeStop _
  | .executeGuard | .executeFetch | .executeIncarnate _ | .doneCnt _ _ | .doneValidation _ _ _
  | .doneExecution _ _ _ _ | .doneTasks _ _ _ _ _ | .doneAgain _ _ _ | .doneStore _ _
  | .dropGuard _ | .finished => false
  | _ => true

omit [DecidableEq K] in
lemma guarded_of_hasTask (h : p.hasTask = true) : p.guarded = true := by
  cases p <;> first | rfl | cases h

omit [DecidableEq K] in
lemma hasTask_of_editing {t : ℕ} (h : p.editing = some t) : p.hasTask = true := by
  cases p <;> first | rfl | cases h

end Pc

omit [DecidableEq K] in
lemma hasTask_resume (k : Resume) : (k.pc : Pc K V O E).hasTask = false :=
  k.pc_induction (P := fun p => p.hasTask = false) rfl rfl rfl

/-- A worker gets a task only for a transaction of the block. -/
lemma Step.hasTask (h : Step cfg sh p mv p') (hp : p.hasTask = false)
    (hfar : ∀ t ∈ p.touches, cfg.numTxns ≤ t) : p'.hasTask = false := by
  cases h with
  | validateTask hidx hstatus => exact absurd hidx (Nat.not_lt.mpr (hfar _ List.mem_cons_self))
  | incarnate hidx hstatus => exact absurd hidx (Nat.not_lt.mpr (hfar _ List.mem_cons_self))
  | schedule | doneTasksNo | doneAgainNo | doneStore | dropGuard hactive => exact hasTask_resume _
  | _ => first | rfl | cases hp

/-- No worker has a task. -/
def Idle (s : LeapState m K V O E) : Prop := ∀ w, (s.pc w).hasTask = false

lemma Idle.step (hi : Idle s) (hf : Final cfg cfg.numTxns s)
    (h : Step cfg s.shared (s.pc w) mv p') : Idle (s.move w (mv.perform s.shared) p') :=
  Global.forall_pc_move (P := fun _ (p : Pc K V O E) => p.hasTask = false)
    (h.hasTask (hi w) (hf.far w)) fun w' _ => hi w'

omit [DecidableEq K] in
lemma Final.mono {num num' : ℕ} (hf : Final cfg num s) (hle : num' ≤ num) : Final cfg num' s where
  validation := le_trans hle hf.validation
  execution := le_trans hle hf.execution
  executed := fun t ht => hf.executed t (lt_of_lt_of_le ht hle)
  valid := fun t ht => hf.valid t (lt_of_lt_of_le ht hle)
  far := fun w t ht => le_trans hle (hf.far w t ht)

/-! ### What `check_done` knows -/

/-- What a worker inside `check_done` knows once it has found no active task. -/
def Closes (s : LeapState m K V O E) : Pc K V O E → Prop
  | .doneAgain _ _ observed => observed = s.shared.decreaseCnt → Idle s
  | .doneStore _ _ => Idle s
  | _ => True

/-- Nobody has a task when `done_marker` is stored, or once it is. -/
structure Closing (s : LeapState m K V O E) : Prop where
  closes : ∀ w, Closes s (s.pc w)
  done : s.shared.doneMarker = true → Idle s

omit [DecidableEq K] in
lemma closes_resume (s : LeapState m K V O E) (k : Resume) : Closes s k.pc :=
  k.pc_induction (P := Closes s) trivial trivial trivial

/-- What a worker knows survives the steps of others: as long as nobody has
counted a decrease the block is over, and nobody gets a task. -/
lemma Closes.step {q : Pc K V O E} (hq : Closes s q) (hlearnt : Learnt cfg s q)
    (hstop : cfg.numTxns ≤ s.shared.stopIdx) (h : Step cfg s.shared (s.pc w) mv p') :
    Closes (s.move w (mv.perform s.shared) p') q := by
  cases q with
  | doneAgain k num observed =>
      obtain ⟨hnum, hobs, hfinal⟩ := hlearnt
      intro heq
      change observed = (mv.perform s.shared).decreaseCnt at heq
      have hcnt := h.decreaseCnt_le
      have hstill : observed = s.shared.decreaseCnt := by omega
      exact (hq hstill).step ((hfinal hstill).mono (le_trans hstop hnum)) h
  | doneStore k num => exact Idle.step hq (hlearnt.2.mono (le_trans hstop hlearnt.1)) h
  | _ => trivial

namespace Closing

/-- What a worker knows after its own step. -/
lemma closes_self (hc : Closing s) (hd : Detection cfg s) (hstop : cfg.numTxns ≤ s.shared.stopIdx)
    (h : Step cfg s.shared (s.pc w) mv p') : Closes (s.move w (mv.perform s.shared) p') p' := by
  have hlearnt := hd.learnt w
  have hcloses := hc.closes w
  have hstep := h
  generalize hpc : s.pc w = p at h hlearnt hcloses
  cases h with
  | doneTasks hval hexec hactive =>
      -- no guard is held, so nobody has a task
      intro _
      refine Global.forall_pc_move (P := fun _ (p : Pc K V O E) => p.hasTask = false) rfl ?_
      intro w' _
      by_contra htask
      have hguarded := Pc.guarded_of_hasTask (Bool.eq_true_of_not_eq_false htask)
      rw [hd.unguarded_of_inactive hactive w'] at hguarded
      cases hguarded
  | doneAgain heq =>
      have hfinal := (hlearnt.2.2 heq).mono (le_trans hstop hlearnt.1)
      exact Idle.step (hcloses heq) hfinal hstep
  | schedule | doneTasksNo | doneAgainNo | doneStore | dropGuard hactive => exact closes_resume _ _
  | _ => trivial

lemma step (hc : Closing s) (hd : Detection cfg s) (hstop : cfg.numTxns ≤ s.shared.stopIdx)
    (h : Step cfg s.shared (s.pc w) mv p') : Closing (s.move w (mv.perform s.shared) p') where
  closes := Global.forall_pc_move (hc.closes_self hd hstop h)
    fun w' _ => (hc.closes w').step (hd.learnt w') hstop h
  done := by
    intro hdone
    by_cases hold : s.shared.doneMarker = true
    · obtain ⟨num, hnum, hfinal⟩ := hd.done hold
      exact (hc.done hold).step (hfinal.mono (le_trans hstop hnum)) h
    · have hlearnt := hd.learnt w
      have hcloses := hc.closes w
      have hstep := h
      generalize hpc : s.pc w = p at h hlearnt hcloses
      cases h with
      | doneStore => exact Idle.step hcloses (hlearnt.2.mono (le_trans hstop hlearnt.1)) hstep
      | _ => exact absurd hdone hold

omit [DecidableEq K] in
lemma panic (hc : Closing s) (w : Fin m) :
    Closing (s.panic w (Move.dropGuard.perform s.shared)) := by
  have hidle : Idle s → Idle (s.panic w (Move.dropGuard.perform s.shared)) := by
    intro hi w'
    rw [Global.pc_panic]
    exact hi w'
  refine ⟨fun w' => ?_, fun hdone => hidle (hc.done hdone)⟩
  have hcloses := hc.closes w'
  rw [Global.pc_panic]
  generalize s.pc w' = q at hcloses
  cases q with
  | doneAgain k num observed => exact fun heq => hidle (hcloses heq)
  | doneStore k num => exact hidle hcloses
  | _ => trivial

end Closing

/-- Transactions that always succeed leave the stop index at the end of the
block. -/
lemma numTxns_le_stopIdx (hsucc : ∀ txn, (cfg.task.executeTransaction txn).Succeeds)
    (acts : List (Fin m × ℕ)) : cfg.numTxns ≤ (leapRun (m := m) cfg acts).shared.stopIdx := by
  have hlow := inOrderStop_le_stopIdx acts fun acts' _ =>
    (sound_leapRun (m := m) cfg acts').stopsInOrder hsucc
  have hall := cfg.task.leadingSuccesses_of_succeeds hsucc Store.empty cfg.block
  rw [inOrderStop, hall, Setup.numTxns] at hlow
  rw [Setup.numTxns]
  omega

theorem closing_leapRun (hsucc : ∀ txn, (cfg.task.executeTransaction txn).Succeeds)
    (hwrites : cfg.DistinctWrites) (acts : List (Fin m × ℕ)) :
    Closing (leapRun (m := m) cfg acts) := by
  refine (leapRun_induction_of (I := fun s => Sound cfg s ∧ Closing s)
    (C := fun s => s.Calm ∧ cfg.numTxns ≤ s.shared.stopIdx)
    ⟨.initial cfg m, fun _ => trivial, fun hdone => by cases hdone⟩ ?_ ?_ acts ?_).2
  · rintro s w mv p' ⟨hs, hc⟩ ⟨hcalm, hstop⟩ hw h
    exact ⟨hs.step hw h, hc.step (hs.detection hcalm) hstop h⟩
  · rintro s w ⟨hs, hc⟩ -
    exact ⟨hs.panic w, hc.panic w⟩
  · exact fun acts' _ => ⟨calm_leapRun hsucc hwrites acts', numTxns_le_stopIdx hsucc acts'⟩

/-! ### The end of the block -/

/-- The block is over. -/
structure BlockOver (cfg : Setup T K V O E) (s : LeapState m K V O E) : Prop where
  executed : ∀ t < cfg.numTxns, ∃ i, s.shared.txnStatus t = .executed i
  idle : ∀ w, (s.pc w).hasTask = false
  unawaited : ∀ d, s.shared.txnDependency d = []
  done : ∀ k t c, s.shared.data.cell k t = some c → c.flag = .done
  valid : ∀ t < cfg.numTxns, ∃ reads, s.shared.inputs t = some reads ∧
    ∀ r ∈ reads, r.isValid s.shared.data t = true

omit [DecidableEq K] in
/-- A block without active tasks below its end is over. -/
lemma Final.blockOver (hf : Final cfg cfg.numTxns s) (hi : Idle s) (hs : Waiting cfg s)
    {hist : Values K V} (hv : Versions cfg hist s) : BlockOver cfg s where
  executed := fun t ht => hf.executed t ht ht
  idle := hi
  unawaited := by
    intro d
    refine List.eq_nil_iff_forall_not_mem.mpr fun t ht => ?_
    obtain ⟨-, i, hi⟩ := hs.waits d t ht
    obtain ⟨j, hj⟩ := hf.executed t (hs.lt_of_executing hi) (hs.lt_of_executing hi)
    rw [hi] at hj
    cases hj
  done := by
    intro k t c hc
    by_cases ht : t < cfg.numTxns
    · obtain ⟨i, hstatus⟩ := hf.executed t ht ht
      obtain ⟨reads, status, hset⟩ := hv.settled_of_executed hs hstatus
      exact (hset.entries.2 k c hc).2
    · -- a transaction beyond the block has never written
      have hrest := hv.rest t fun w hedit => by
        have htask := Pc.hasTask_of_editing hedit
        rw [hi w] at htask
        cases htask
      rw [AtRest, hs.beyond t (Nat.le_of_not_lt ht)] at hrest
      exact absurd (hrest.2 k _ _ (hv.cells k t c hc)) (Nat.not_lt_zero _)
  valid := by
    intro t ht
    obtain ⟨i, hstatus⟩ := hf.executed t ht ht
    obtain ⟨reads, status, hset⟩ := hv.settled_of_executed hs hstatus
    exact ⟨reads, hset.inputs, hf.valid t ht ht reads hset.inputs⟩

/-- **Termination detection is safe.** For transactions that always succeed and
never repeat a key in an output, and every interleaving of the workers: when a
worker is about to store `done_marker`, every transaction is executed, no worker
has a task, every dependency list is empty, no cell is an estimate, and every
recorded read set is valid. The same holds ever after. -/
theorem done_when_over (cfg : Setup T K V O E)
    (hsucc : ∀ txn, (cfg.task.executeTransaction txn).Succeeds) (hwrites : cfg.DistinctWrites)
    (m : ℕ) (acts : List (Fin m × ℕ)) :
    let s : LeapState m K V O E := leapRun cfg acts
    (∀ w, (s.pc w).storesDone = true → BlockOver cfg s) ∧
      (s.shared.doneMarker = true → BlockOver cfg s) := by
  intro s
  have hsound : Sound cfg s := sound_leapRun cfg acts
  have hstop : cfg.numTxns ≤ s.shared.stopIdx := numTxns_le_stopIdx hsucc acts
  have hclosing : Closing s := closing_leapRun hsucc hwrites acts
  have hdetection := hsound.detection (calm_leapRun hsucc hwrites acts)
  obtain ⟨hist, hv⟩ := hsound.versions
  refine ⟨fun w hw => ?_, fun hdone => ?_⟩
  · have hlearnt := hdetection.learnt w
    have hcloses := hclosing.closes w
    generalize s.pc w = p at hw hlearnt hcloses
    cases p with
    | doneStore k num =>
        exact (hlearnt.2.mono (le_trans hstop hlearnt.1)).blockOver hcloses hsound.waiting hv
    | _ => cases hw
  · obtain ⟨num, hnum, hfinal⟩ := hdetection.done hdone
    exact (hfinal.mono (le_trans hstop hnum)).blockOver (hclosing.done hdone) hsound.waiting hv

/-- Two workers have executed the second transaction twice when one of them stores
`done_marker`. -/
theorem done_when_over_counterBlock :
    let s : LeapState 2 Unit ℕ ℕ Unit := leapRun counterBlock (race 55)
    s.shared.abortCount = 1 ∧ s.shared.doneMarker = true ∧ BlockOver counterBlock s := by
  have hdone : (leapRun counterBlock (race 55)).shared.abortCount = 1 ∧
      (leapRun counterBlock (race 55)).shared.doneMarker = true := by decide +kernel
  have hsucc : ∀ txn, (counterBlock.task.executeTransaction txn).Succeeds := by
    rintro - ((_ | _) | _) <;> exact True.intro
  exact ⟨hdone.1, hdone.2,
    (done_when_over counterBlock hsucc distinctWrites_counterBlock 2 _).2 hdone.2⟩

/-- A block of one transaction, whose output lists a key twice. -/
def twiceBlock : Setup Unit Unit ℕ Unit Unit where
  task :=
    { executeTransaction := fun _ => .ret (.success ())
      getWrites := fun _ => [((), 1), ((), 2)]
      skipOutput := () }
  block := [()]
  backpressureWindow := 0
  segmentBounds := []
  txnToSegment := []

/-- The second write of the key panics. Unwinding drops the guard of the task,
and the other worker is about to store `done_marker` while the transaction is
still executing. -/
theorem done_after_panic :
    let s : LeapState 2 Unit ℕ Unit Unit :=
      leapRun twiceBlock (List.replicate 14 (0, 0) ++ List.replicate 19 (1, 0))
    (∀ txn, (twiceBlock.task.executeTransaction txn).Succeeds) ∧
      (s.pc 1).storesDone = true ∧ s.shared.txnStatus 0 = .executing 0 := by
  refine ⟨fun _ => True.intro, ?_⟩
  decide +kernel

end StablecoinSystem
