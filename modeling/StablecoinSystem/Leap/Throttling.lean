import StablecoinSystem.Leap.DomainPlan
import StablecoinSystem.Leap.Step

/-!
Backpressure and the domain-aware throttle of `next_task`.

Both make a worker try validation where it would have tried it anyway: an
iteration of `next_task` tries execution if and only if the validation index it
loaded has caught up with the execution index, whatever the window and the
segments of the plan. The throttle needs that the table of the plan is
monotone, `findSegment_mono`.

* `InIteration`: the program counters of one iteration of `next_task`.
* `ExecutesIff`: when an iteration tries execution.
* `leap_lockstep`: without segments, the workers with a window and the workers
  without one move together, and only `wait_count` tells them apart.
-/

namespace StablecoinSystem

variable {T K V O E : Type}

namespace Setup

/-- The executor with a backpressure window and a domain plan, whose table
covers `numTxns` transactions. -/
def withDomainPlan (cfg : Setup T K V O E) (window : ℕ) (plan : DomainPlan) (numTxns : ℕ) :
    Setup T K V O E :=
  { cfg with
    backpressureWindow := window
    segmentBounds := plan.segmentBounds
    txnToSegment := plan.txnToSegment numTxns }

/-- The executor with a backpressure window and no segments. -/
def withBackpressure (cfg : Setup T K V O E) (window : ℕ) : Setup T K V O E :=
  { cfg with
    backpressureWindow := window
    segmentBounds := []
    txnToSegment := [] }

/-- The table of a plan is monotone, also past its end. -/
lemma findSegment_mono (cfg : Setup T K V O E) (window lMax numTxns : ℕ)
    (txs : List StablecoinTx) :
    Monotone (cfg.withDomainPlan window (buildDomainPlan txs lMax) numTxns).findSegment := by
  intro i j hle
  have hfind (k : ℕ) :
      (cfg.withDomainPlan window (buildDomainPlan txs lMax) numTxns).findSegment k =
        ((List.range numTxns).map (buildDomainPlan txs lMax).segmentOf)[k]?.getD
          (buildDomainPlan txs lMax).segments.length := by
    rw [← buildDomainPlan_txnToSegment, ← DomainPlan.length_segmentBounds]
    rfl
  rw [hfind, hfind]
  by_cases hj : j < numTxns
  · have hi : i < numTxns := Nat.lt_of_le_of_lt hle hj
    simpa [hi, hj] using buildDomainPlan_segmentOf_mono txs lMax hle
  · by_cases hi : i < numTxns
    · simpa [hi, hj] using (buildDomainPlan txs lMax).segmentOf_le i
    · simp [hi, hj]

variable {cfg : Setup T K V O E} {v e : ℕ}

/-- No backpressure where validation has caught up. -/
lemma backpressured_of_le (h : e ≤ v) : cfg.backpressured v e = false := by
  simp [backpressured, h]

/-- No throttle where validation has caught up, if the table is monotone. -/
lemma throttled_of_le (hmono : Monotone cfg.findSegment) (h : e ≤ v) :
    cfg.throttled v e = false := by
  have hle := hmono h
  simp [throttled, hle]

lemma findSegment_withBackpressure (cfg : Setup T K V O E) (window i : ℕ) :
    (cfg.withBackpressure window).findSegment i = 0 := by
  simp [findSegment, withBackpressure]

end Setup

/-! ### One iteration of `next_task` -/

/-- The worker is inside `try_validate_next_version` or
`try_execute_next_version`. -/
def Pc.attempting : Pc K V O E → Bool
  | .validateLoad _ | .validateStop _ _ | .validateGuard _ | .validateFetch _
  | .validateCheck _ _ => true
  | .executeLoad | .executeStop _ | .executeGuard | .executeFetch | .executeIncarnate _ => true
  | .doneCnt _ _ | .doneValidation _ _ _ | .doneExecution _ _ _ _ | .doneTasks _ _ _ _ _
  | .doneAgain _ _ _ | .doneStore _ _ => true
  | .dropGuard _ => true
  | _ => false

variable [DecidableEq K]

/-- The program counters of an iteration of `next_task` from the load of
`execution_idx` on, which finds `e` after `validation_idx` was `v`, whatever the
shared state is at each of its steps. -/
inductive InIteration (cfg : Setup T K V O E) (v e : ℕ) : Pc K V O E → Prop where
  | start {p' : Pc K V O E} {c : ℕ} {sh : Shared K V O E} {mv : Move K V O E} :
      sh.executionIdx = e → plan cfg c sh (.loadExecution v) = some (mv, p') →
      InIteration cfg v e p'
  | step {p p' : Pc K V O E} {c : ℕ} {sh : Shared K V O E} {mv : Move K V O E} :
      InIteration cfg v e p → p.attempting = true → plan cfg c sh p = some (mv, p') →
      InIteration cfg v e p'

/-- An iteration of `next_task` that loads `e` after `v` goes to
`try_execute_next_version` at once if `e ≤ v`, and never otherwise. -/
def Setup.ExecutesIff (cfg : Setup T K V O E) : Prop :=
  ∀ v e, (e ≤ v → ∀ (c : ℕ) (sh : Shared K V O E), sh.executionIdx = e →
      plan cfg c sh (.loadExecution v) = some (.idle, .executeLoad)) ∧
    (InIteration cfg v e .executeLoad → e ≤ v)

/-- Where an iteration that has loaded `v < e` can be: it validates, and resumes
with the indices it has loaded. -/
def Validating (v e : ℕ) : Pc K V O E → Prop
  | .validateLoad k | .validateStop k _ | .validateGuard k | .validateFetch k
  | .validateCheck k _ => k = .retry ∨ k = .schedule v e
  | .doneCnt k _ | .doneValidation k _ _ | .doneExecution k _ _ _ | .doneTasks k _ _ _ _
  | .doneAgain k _ _ | .doneStore k _ => k = .retry ∨ k = .schedule v e
  | .dropGuard k => k = .retry ∨ k = .schedule v e
  | .nextTask | .validate _ _ => True
  | _ => False

section

variable {cfg : Setup T K V O E} {v e : ℕ}

omit [DecidableEq K] in
lemma validating_resume {k : Resume} (hlt : v < e) (h : k = .retry ∨ k = .schedule v e) :
    Validating v e (k.pc : Pc K V O E) := by
  rcases h with rfl | rfl
  · exact trivial
  · rw [Resume.pc, scheduleNext, if_pos hlt]
    exact .inl rfl

omit [DecidableEq K] in
lemma validating_afterLoads (hlt : v < e) : Validating v e (afterLoads cfg v e).2 := by
  rw [afterLoads]
  split
  · exact .inl rfl
  · split
    · exact .inr rfl
    · exact validating_resume hlt (.inr rfl)

/-- One step of an iteration that validates. -/
lemma Step.validating_iteration {sh : Shared K V O E} {p p' : Pc K V O E} {mv : Move K V O E}
    (hstep : Step cfg sh p mv p') (hlt : v < e) (h : Validating v e p)
    (hatt : p.attempting = true) : Validating v e p' := by
  cases hstep with
  | validateLoad | validateExhausted | validateBelow | validateGuard | validateFetch => exact h
  | validateTask => exact trivial
  | validateNone => exact h
  | doneCnt | doneValidation | doneExecution | doneTasks | doneAgain => exact h
  | doneTasksNo | doneAgainNo | doneStore | dropGuard => exact validating_resume hlt h
  | executeLoad | executeExhausted | executeBelow | executeGuard | executeFetch | incarnate
  | incarnateNone => exact h.elim
  | _ => cases hatt

lemma InIteration.validating {p : Pc K V O E} (hlt : v < e) (h : InIteration cfg v e p) :
    Validating v e p := by
  induction h with
  | start hload hplan =>
      rw [plan, hload, Option.some.injEq] at hplan
      have hloaded : Validating v e (afterLoads cfg v e).2 := validating_afterLoads hlt
      rwa [hplan] at hloaded
  | step _ hatt hplan ih => exact (step_of_plan hplan).validating_iteration hlt ih hatt

/-- A monotone table of segments does not change when execution is tried. -/
lemma executesIff_of_mono (hmono : Monotone cfg.findSegment) : cfg.ExecutesIff := by
  refine fun v e => ⟨fun hle c sh hload => ?_, fun h => ?_⟩
  · rw [plan, hload, afterLoads, Setup.backpressured_of_le hle, Setup.throttled_of_le hmono hle]
    simp [scheduleNext, hle]
  · by_contra hlt
    exact h.validating (Nat.lt_of_not_le hlt)

end

/-! ### Runs with and without a window -/

/-- `SchedulerTask`, without the answer `NoTask`. -/
inductive SchedulerTask where
  | executionTask (txnIdx incarnation : ℕ)
  | validationTask (txnIdx incarnation : ℕ)
  | done
  deriving DecidableEq, Repr

/-- The task a worker is handed in a step, by its program counters before and
after. -/
def handedOut : Pc K V O E → Pc K V O E → Option SchedulerTask
  | .nextTask, .finished => some .done
  | _, .readSet idx inc => some (.executionTask idx inc)
  | _, .validate idx inc => some (.validationTask idx inc)
  | _, _ => none

/-- The shared state without `wait_count`. -/
def Shared.forgetWaits (sh : Shared K V O E) : Shared K V O E := { sh with waitCount := 0 }

/-- What a run of `m` workers shows: at each step the task handed out, and every
field of the shared state but `wait_count`. -/
def schedulerTrace (cfg : Setup T K V O E) (m : ℕ) (acts : List (Fin m × ℕ)) :
    List (List SchedulerTask × Shared K V O E) :=
  (leap cfg).trace handedOut Shared.forgetWaits acts (LeapState.initial cfg m)

omit [DecidableEq K] in
/-- An operation does the same to shared states that differ in `wait_count`
only. -/
lemma forgetWaits_perform {sh sh' : Shared K V O E} (h : sh.forgetWaits = sh'.forgetWaits)
    (mv : Move K V O E) : (mv.perform sh).forgetWaits = (mv.perform sh').forgetWaits := by
  have hforget : ∀ s : Shared K V O E,
      (mv.perform s).forgetWaits = (mv.perform s.forgetWaits).forgetWaits := by
    intro s
    cases mv <;> rfl
  rw [hforget sh, h, ← hforget sh']

/-- No step reads `wait_count`. -/
lemma plan_congr_of_forgetWaits {sh sh' : Shared K V O E} (h : sh.forgetWaits = sh'.forgetWaits)
    (cfg : Setup T K V O E) (c : ℕ) (p : Pc K V O E) : plan cfg c sh p = plan cfg c sh' p := by
  have hforget : ∀ s : Shared K V O E, plan cfg c s p = plan cfg c s.forgetWaits p := by
    intro s
    cases p <;> rfl
  rw [hforget sh, h, ← hforget sh']

/-- The window matters in one place only. -/
lemma plan_withBackpressure (cfg : Setup T K V O E) (window c : ℕ) (sh : Shared K V O E)
    {p : Pc K V O E} (hp : ∀ v, p ≠ .loadExecution v) :
    plan (cfg.withBackpressure window) c sh p = plan (cfg.withBackpressure 0) c sh p := by
  cases p with
  | loadExecution v => exact absurd rfl (hp v)
  | _ => rfl

omit [DecidableEq K] in
/-- After the loads both go on at the same place, and differ at most in counting
a wait. -/
lemma afterLoads_withBackpressure (cfg : Setup T K V O E) (window v e : ℕ) (sh : Shared K V O E) :
    ((afterLoads (cfg.withBackpressure window) v e).1.perform sh).forgetWaits =
        ((afterLoads (cfg.withBackpressure 0) v e).1.perform sh).forgetWaits ∧
      (afterLoads (cfg.withBackpressure window) v e).2 =
        (afterLoads (cfg.withBackpressure 0) v e).2 := by
  have hthrottled : ∀ w, (cfg.withBackpressure w).throttled v e = false := by
    intro w
    simp [Setup.throttled, Setup.findSegment_withBackpressure]
  have hnone : (cfg.withBackpressure 0).backpressured v e = false := by
    simp [Setup.backpressured, Setup.withBackpressure]
  rw [afterLoads, afterLoads, hthrottled, hthrottled, hnone]
  by_cases hback : (cfg.withBackpressure window).backpressured v e
  · -- under backpressure validation is tried, as it is without a window
    have hlt : v < e := by
      simp only [Setup.backpressured, Bool.and_eq_true, decide_eq_true_eq] at hback
      exact hback.1.2
    simp [hback, scheduleNext, hlt, Move.perform, Shared.forgetWaits]
  · simp [hback]

/-- The workers with a window and those without move together. -/
theorem leap_lockstep (cfg : Setup T K V O E) (window : ℕ) :
    Machine.Lockstep (leap (cfg.withBackpressure window)) (leap (cfg.withBackpressure 0))
      fun sh sh' => sh.forgetWaits = sh'.forgetWaits where
  next := by
    intro c sh sh' p h
    simp only [leap, ← plan_congr_of_forgetWaits h (cfg.withBackpressure 0)]
    by_cases hload : ∃ v, p = .loadExecution v
    · obtain ⟨v, rfl⟩ := hload
      obtain ⟨hmove, hpc⟩ := afterLoads_withBackpressure cfg window v sh.executionIdx sh
      exact .some ⟨hmove.trans (forgetWaits_perform h _), hpc⟩
    · rw [plan_withBackpressure cfg window c sh (not_exists.mp hload)]
      cases plan (cfg.withBackpressure 0) c sh p with
      | none => exact .none
      | some next => exact .some ⟨forgetWaits_perform h next.1, rfl⟩
  unwind := fun _ _ h => forgetWaits_perform h .dropGuard

/-- The two counters under a window of one transaction, with the segments of two
mints. -/
def guardedBlock : Setup Unit Unit ℕ ℕ Unit :=
  { counterBlock with
    backpressureWindow := 1
    segmentBounds := [(0, 1, false), (1, 2, false)]
    txnToSegment := [0, 1] }

/-- Both mints write the total supply. -/
def twoMints : List StablecoinTx := [⟨.mint 1 10, 0, 0⟩, ⟨.mint 2 10, 1, 1⟩]

lemma guardedBlock_eq :
    guardedBlock = counterBlock.withDomainPlan 1 (buildDomainPlan twoMints 1) 2 := by
  have hsegments : (buildDomainPlan twoMints 1).segmentBounds =
      [(0, 1, false), (1, 2, false)] := by
    simp [buildDomainPlan, DomainPlan.segmentBounds, twoMints, segmentsFrom, extendSegment,
      parBounds, boundary, StablecoinTx.conflictDomain, collectWriteAccounts]
  have htable : (buildDomainPlan twoMints 1).txnToSegment 2 = [0, 1] := by
    simp [buildDomainPlan, DomainPlan.txnToSegment, twoMints, segmentsFrom, extendSegment, fillTable,
      fillRange]
  rw [Setup.withDomainPlan, hsegments, htable, guardedBlock]

/-- **The throttles do not change what is scheduled.** With any window and the
segments of any plan, as with neither, an iteration of `next_task` tries
execution if and only if the loaded validation index is not behind the loaded
execution index. Without segments, the runs with a window are the runs without
one, but for `wait_count`. -/
theorem throttles_neutral (cfg : Setup T K V O E) (window lMax numTxns m : ℕ)
    (txs : List StablecoinTx) :
    (cfg.withDomainPlan window (buildDomainPlan txs lMax) numTxns).ExecutesIff ∧
      (cfg.withBackpressure 0).ExecutesIff ∧
      Set.range (schedulerTrace (cfg.withBackpressure window) m) =
        Set.range (schedulerTrace (cfg.withBackpressure 0) m) := by
  refine ⟨executesIff_of_mono (Setup.findSegment_mono cfg window lMax numTxns txs),
    executesIff_of_mono fun i j _ => ?_, congrArg Set.range (funext fun acts => ?_)⟩
  · rw [Setup.findSegment_withBackpressure, Setup.findSegment_withBackpressure]
  · exact (leap_lockstep cfg window).trace_eq (fun _ _ h => h) acts rfl rfl

set_option maxRecDepth 20000 in
/-- Two workers that take turns both fetch a transaction before anything is
validated. Then the window makes them wait twice, and once validation has
caught up, execution is tried again. -/
theorem throttles_neutral_guardedBlock :
    let early : LeapState 2 Unit ℕ ℕ Unit := leapRun guardedBlock (takeTurns 24)
    let late : LeapState 2 Unit ℕ ℕ Unit := leapRun guardedBlock (takeTurns 36)
    (early.pc first = .loadExecution 0 ∧ early.shared.executionIdx = 2 ∧
      ¬InIteration guardedBlock 0 2 .executeLoad) ∧
    late.shared.waitCount = 2 ∧ late.pc first = .loadExecution 2 ∧
      plan guardedBlock 0 late.shared (late.pc first) = some (.idle, .executeLoad) := by
  intro early late
  have hiff : guardedBlock.ExecutesIff := by
    rw [guardedBlock_eq]
    exact (throttles_neutral counterBlock 1 1 2 2 twoMints).1
  have hlate : late.pc first = .loadExecution 2 := rfl
  refine ⟨⟨rfl, rfl, fun h => absurd ((hiff 0 2).2 h) (by decide)⟩, rfl, hlate, ?_⟩
  rw [hlate]
  exact (hiff 2 2).1 (Nat.le_refl 2) 0 late.shared rfl

end StablecoinSystem
