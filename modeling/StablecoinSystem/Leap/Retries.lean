import Mathlib.Algebra.BigOperators.Ring.Finset
import Mathlib.Tactic.Ring
import StablecoinSystem.Leap.Changes

/-!
How often a transaction is executed.

A transaction is executed again after a validation has aborted it, and each
abort answers a change to what a lower transaction has written.

* `Covered`: the aborts are bounded by the changes below;
* `bounded_retry`: with at most `M` writes in an output, transaction `t` finishes
  at most `((2M+1)^t + 1) / 2` executions, whatever the backpressure window;
* `three_executions`: a transaction of index 1 may need three, so `i + 1` is not
  a bound, nor is `W + 1`.
-/

namespace StablecoinSystem

open Finset

variable {T K V O E : Type} [DecidableEq K]

variable {cfg : Setup T K V O E} {sh : Shared K V O E} {p p' : Pc K V O E} {mv : Move K V O E}
  {m : ℕ} {s : LeapState m K V O E} {w : Fin m} {log : List Event} {t i : ℕ}

/-! ### Aborts -/

/-- The changes made by transactions below `t`. -/
def disturbedBelow (log : List Event) (t : ℕ) : ℕ := ∑ j ∈ range t, log.count (.disturb j)

lemma disturbedBelow_append (log : List Event) (o : Option Event) (t : ℕ) :
    disturbedBelow log t ≤ disturbedBelow (log ++ o.toList) t ∧
      ∀ j < t, o = some (.disturb j) →
        disturbedBelow log t < disturbedBelow (log ++ o.toList) t := by
  have hle : ∀ j, log.count (.disturb j) ≤ (log ++ o.toList).count (.disturb j) := fun j => by
    rw [count_append_toList]
    exact Nat.le_add_right _ _
  refine ⟨Finset.sum_le_sum fun j _ => hle j, fun j hj ho => ?_⟩
  refine Finset.sum_lt_sum (fun j _ => hle j) ⟨j, mem_range.mpr hj, ?_⟩
  rw [count_append_toList, if_pos ho]
  exact Nat.lt_succ_self _

namespace Pc

/-- The reads that a worker has captured of its transaction and not recorded. -/
def captured : Pc K V O E → Option (ℕ × List (ReadDescriptor K))
  | .body idx _ reads false _ | .readDep idx _ reads _ _ _ | .readPush idx _ reads _ _
  | .prevWrites idx _ reads _ | .applyWrites idx _ reads _ _ _ _ | .deletes idx _ reads _ _ _
  | .recordInput idx _ reads _ _ => some (idx, reads)
  | _ => none

/-- The transaction whose reads a worker has recorded and which is not
`Executed` yet. -/
def recording : Pc K V O E → Option ℕ
  | .recordOutput idx _ _ _ | .setExecuted idx _ _ => some idx
  | _ => none

/-- The version that a worker has executed or validates. -/
def validating : Pc K V O E → Option (ℕ × ℕ)
  | .takeDeps idx inc _ | .resume idx inc _ _ _ | .decreaseExecution idx inc _ _
  | .countExecution idx inc _ | .compareValidation idx inc _ | .validate idx inc
  | .validateReads idx inc _ | .tryAbort idx inc => some (idx, inc)
  | _ => none

omit [DecidableEq K] in
lemma mem_claims_of_captured {reads : List (ReadDescriptor K)}
    (h : p.captured = some (t, reads)) : t ∈ p.claims := by
  cases p with
  | body idx inc reads' dependency rest =>
      cases dependency <;> cases h
      simp [claims, running]
  | _ => cases h <;> simp [claims, running]

omit [DecidableEq K] in
lemma mem_claims_of_recording (h : p.recording = some t) : t ∈ p.claims := by
  cases p <;> cases h <;> simp [claims, running]

end Pc

omit [DecidableEq K] in
lemma readers_resume (k : Resume) : (k.pc : Pc K V O E).captured = none ∧
    (k.pc : Pc K V O E).recording = none ∧ (k.pc : Pc K V O E).validating = none :=
  k.pc_induction (P := fun p => p.captured = none ∧ p.recording = none ∧ p.validating = none)
    ⟨rfl, rfl, rfl⟩ ⟨rfl, rfl, rfl⟩ ⟨rfl, rfl, rfl⟩

/-- The reads of the current incarnation of `t`: captured by a worker, or
recorded. -/
def Current (s : LeapState m K V O E) (t : ℕ) (reads : List (ReadDescriptor K)) : Prop :=
  (∃ w, (s.pc w).captured = some (t, reads)) ∨ s.shared.inputs t = some reads ∧
    ((∃ w, (s.pc w).recording = some t) ∨ ∃ i, s.shared.txnStatus t = .executed i)

/-- Incarnation `i` has been executed. -/
def TransactionStatus.Passed (i : ℕ) : TransactionStatus → Prop
  | .readyToExecute j | .executing j => i < j
  | .executed j | .aborting j => i ≤ j

/-- Every abort answers a change below. As long as all of them are used up, the
reads of the current incarnation are valid. -/
structure Covered (log : List Event) (s : LeapState m K V O E) : Prop where
  le : ∀ t, log.count (.abort t) ≤ disturbedBelow log t
  valid : ∀ t reads, Current s t reads → log.count (.abort t) = disturbedBelow log t →
    ∀ r ∈ reads, r.isValid s.shared.data t = true
  passed : ∀ w t i, (s.pc w).validating = some (t, i) → (s.shared.txnStatus t).Passed i
  testing : ∀ w t i rest, s.pc w = .validateReads t i rest → s.shared.txnStatus t = .executed i →
    ∀ r ∈ rest, ∃ reads, s.shared.inputs t = some reads ∧ r ∈ reads
  failing : ∀ w t i, s.pc w = .tryAbort t i → s.shared.txnStatus t = .executed i →
    log.count (.abort t) < disturbedBelow log t

lemma Step.passed (h : Step cfg sh p mv p') (hp : (sh.txnStatus t).Passed i) :
    ((mv.perform sh).txnStatus t).Passed i := by
  rcases h.transition t with heq | ⟨st, st', hst, hnew, htransition⟩
  · rwa [heq]
  · rw [hst] at hp
    rw [hnew]
    cases htransition with
    | incarnate _ _ | tryAbort => exact hp
    | setExecuted => exact le_of_lt hp
    | resume => exact Nat.lt_succ_of_lt hp
    | setAborted => exact Nat.lt_succ_of_le hp

/-- The recorded reads change only when a worker records those it captured. -/
lemma Step.inputs_eq_or (h : Step cfg sh p mv p') (t : ℕ) :
    (mv.perform sh).inputs t = sh.inputs t ∨
      ∃ reads, p.captured = some (t, reads) ∧ (mv.perform sh).inputs t = some reads := by
  cases mv with
  | setInput t' reads =>
      by_cases htt : t = t'
      · subst htt
        cases h with
        | recordInput => exact Or.inr ⟨reads, rfl, Function.update_self ..⟩
      · exact Or.inl (Function.update_of_ne htt _ _)
  | _ => exact Or.inl rfl

/-- A transaction becomes `Executed` when its reads have been recorded. -/
lemma Step.recording_of_executed (h : Step cfg sh p mv p')
    (hnew : (mv.perform sh).txnStatus t = .executed i) (hold : sh.txnStatus t ≠ .executed i) :
    p.recording = some t ∧ sh.txnStatus t = .executing i := by
  rcases h.transition t with heq | ⟨st, st', hst, hst', htransition⟩
  · exact absurd (heq.symm.trans hnew) hold
  · rw [hnew] at hst'
    cases htransition with
    | setExecuted =>
        cases hst'
        exact ⟨rfl, hst⟩
    | _ => cases hst'

/-- What the worker has captured after a step it had captured before, or has
just read. -/
lemma Step.captured (h : Step cfg sh p mv p') {reads : List (ReadDescriptor K)}
    {r : ReadDescriptor K} (hnew : p'.captured = some (t, reads)) (hr : r ∈ reads) :
    r.isValid (mv.perform sh).data t = true ∨
      ∃ reads', p.captured = some (t, reads') ∧ r ∈ reads' := by
  cases h with
  | readSetNone hblock => cases hnew; cases hr
  | precheckEnd hblock => cases hnew; cases hr
  | @bodyVersion idx inc reads dependency key next j i v hread =>
      cases dependency <;> cases hnew
      rcases List.mem_append.mp hr with hr | hr
      · exact Or.inr ⟨_, rfl, hr⟩
      · rw [List.mem_singleton.mp hr]
        exact Or.inl (isValid_iff.mpr (Or.inl ⟨j, i, v, rfl, hread⟩))
  | @bodyStorage idx inc reads dependency key next hread =>
      cases dependency <;> cases hnew
      rcases List.mem_append.mp hr with hr | hr
      · exact Or.inr ⟨_, rfl, hr⟩
      · rw [List.mem_singleton.mp hr]
        exact Or.inl (isValid_iff.mpr (Or.inr ⟨rfl, hread⟩))
  | schedule | doneTasksNo | doneAgainNo | doneStore | dropGuard hactive =>
      rw [(readers_resume _).1] at hnew
      cases hnew
  | _ => first | exact Or.inr ⟨_, hnew, hr⟩ | cases hnew

/-- A worker that has recorded the reads of its transaction had recorded them
before the step, or has just done so. -/
lemma Step.recording (h : Step cfg sh p mv p') (hnew : p'.recording = some t) :
    p.recording = some t ∨ ∃ reads, p.captured = some (t, reads) ∧
      (mv.perform sh).inputs t = some reads := by
  cases h with
  | recordInput =>
      cases hnew
      exact Or.inr ⟨_, rfl, Function.update_self ..⟩
  | recordOutput => exact Or.inl hnew
  | schedule | doneTasksNo | doneAgainNo | doneStore | dropGuard hactive =>
      rw [(readers_resume _).2.1] at hnew
      cases hnew
  | _ => cases hnew

/-- A version is validated once it has been executed. -/
lemma Step.validating (h : Step cfg sh p mv p') (hnew : p'.validating = some (t, i)) :
    p.validating = some (t, i) ∨ (mv.perform sh).txnStatus t = .executed i := by
  cases h with
  | setExecuted hstatus =>
      cases hnew
      exact Or.inr (Function.update_self ..)
  | validateTask hidx hstatus =>
      cases hnew
      exact Or.inr hstatus
  | schedule | doneTasksNo | doneAgainNo | doneStore | dropGuard hactive =>
      rw [(readers_resume _).2.2] at hnew
      cases hnew
  | _ => first | exact Or.inl hnew | cases hnew

omit [DecidableEq K] in
lemma resume_ne_of_validating {k : Resume} {q : Pc K V O E} (h : q.validating = some (t, i)) :
    k.pc ≠ q := by
  rintro rfl
  rw [(readers_resume k).2.2] at h
  cases h

/-- The reads under test are the recorded ones, or what is left of them. -/
lemma Step.testing_cases (h : Step cfg sh p mv p') {rest : List (ReadDescriptor K)}
    (hnew : p' = .validateReads t i rest) :
    mv = .idle ∧ (sh.inputs t = some rest ∨ ∃ r, p = .validateReads t i (r :: rest)) := by
  cases h with
  | validate hinputs =>
      cases hnew
      exact ⟨rfl, Or.inl hinputs⟩
  | readValid hvalid =>
      cases hnew
      exact ⟨rfl, Or.inr ⟨_, rfl⟩⟩
  | schedule | doneTasksNo | doneAgainNo | doneStore | dropGuard hactive =>
      exact absurd hnew (resume_ne_of_validating rfl)
  | _ => cases hnew

/-- A worker tries to abort a version when it has found an invalid read. -/
lemma Step.failing_cases (h : Step cfg sh p mv p') (hnew : p' = .tryAbort t i) :
    mv = .idle ∧ ∃ r rest, p = .validateReads t i (r :: rest) ∧
      ¬r.isValid sh.data t = true := by
  cases h with
  | readInvalid hinvalid =>
      cases hnew
      exact ⟨rfl, _, _, rfl, hinvalid⟩
  | schedule | doneTasksNo | doneAgainNo | doneStore | dropGuard hactive =>
      exact absurd hnew (resume_ne_of_validating rfl)
  | _ => cases hnew

/-- A read of the current incarnation was one before the step, or has just been
made. -/
lemma Current.of_step {reads : List (ReadDescriptor K)} {r : ReadDescriptor K}
    (h : Step cfg s.shared (s.pc w) mv p')
    (hc : Current (s.move w (mv.perform s.shared) p') t reads) (hr : r ∈ reads) :
    r.isValid (mv.perform s.shared).data t = true ∨ ∃ reads', Current s t reads' ∧ r ∈ reads' := by
  rcases hc with ⟨w', hcaptured⟩ | ⟨hinputs, hrecorded⟩
  · by_cases hne : w' = w
    · rw [hne, Global.pc_move_self] at hcaptured
      rcases h.captured hcaptured hr with hvalid | ⟨reads', hold, hr'⟩
      · exact Or.inl hvalid
      · exact Or.inr ⟨reads', Or.inl ⟨w, hold⟩, hr'⟩
    · rw [Global.pc_move_of_ne s hne] at hcaptured
      exact Or.inr ⟨reads, Or.inl ⟨w', hcaptured⟩, hr⟩
  · right
    refine ⟨reads, ?_, hr⟩
    change (mv.perform s.shared).inputs t = some reads at hinputs
    rcases h.inputs_eq_or t with hsame | ⟨reads', hcaptured, hnew⟩
    · rw [hsame] at hinputs
      rcases hrecorded with ⟨w', hrecording⟩ | ⟨i, hexec⟩
      · by_cases hne : w' = w
        · rw [hne, Global.pc_move_self] at hrecording
          rcases h.recording hrecording with hold | ⟨reads', hcaptured, hnew⟩
          · exact Or.inr ⟨hinputs, Or.inl ⟨w, hold⟩⟩
          · rw [hsame, hinputs] at hnew
            cases hnew
            exact Or.inl ⟨w, hcaptured⟩
        · rw [Global.pc_move_of_ne s hne] at hrecording
          exact Or.inr ⟨hinputs, Or.inl ⟨w', hrecording⟩⟩
      · by_cases hold : s.shared.txnStatus t = .executed i
        · exact Or.inr ⟨hinputs, Or.inr ⟨i, hold⟩⟩
        · exact Or.inr ⟨hinputs, Or.inl ⟨w, (h.recording_of_executed hexec hold).1⟩⟩
    · rw [hinputs] at hnew
      cases hnew
      exact Or.inl ⟨w, hcaptured⟩

omit [DecidableEq K] in
/-- A transaction that is being aborted has no current reads. -/
lemma not_current_of_abort (hs : Waiting cfg s) {sh' : Shared K V O E}
    (hexec : s.shared.txnStatus t = .executed i) (hnew : sh'.txnStatus t = .aborting i)
    (reads : List (ReadDescriptor K)) : ¬Current (s.move w sh' (.writeSet t i)) t reads := by
  have hfree (w' : Fin m) (hne : w' ≠ w) : t ∉ (s.pc w').claims := fun hclaim => by
    have hbusy := (hs.claim_unique hclaim).2.1
    rw [hexec] at hbusy
    cases hbusy
  rintro (⟨w', hcaptured⟩ | ⟨-, ⟨w', hrecording⟩ | ⟨j, hj⟩⟩)
  · by_cases hne : w' = w
    · rw [hne, Global.pc_move_self] at hcaptured
      cases hcaptured
    · rw [Global.pc_move_of_ne s hne] at hcaptured
      exact hfree w' hne (Pc.mem_claims_of_captured hcaptured)
  · by_cases hne : w' = w
    · rw [hne, Global.pc_move_self] at hrecording
      cases hrecording
    · rw [Global.pc_move_of_ne s hne] at hrecording
      exact hfree w' hne (Pc.mem_claims_of_recording hrecording)
  · change sh'.txnStatus t = .executed j at hj
    rw [hnew] at hj
    cases hj

namespace Covered

variable {hist : Values K V}

/-- The count of aborts changes with an abort only. -/
lemma count_abort_eq {o : Option Event} (h : o ≠ some (.abort t)) :
    (log ++ o.toList).count (.abort t) = log.count (.abort t) := by
  rw [count_append_toList, if_neg h]
  rfl

lemma le_step (hc : Covered log s) (h : Step cfg s.shared (s.pc w) mv p') (t : ℕ) :
    (log ++ ((s.pc w).event p').toList).count (.abort t) ≤
      disturbedBelow (log ++ ((s.pc w).event p').toList) t := by
  have hgrow := (disturbedBelow_append log ((s.pc w).event p') t).1
  by_cases hevent : (s.pc w).event p' = some (.abort t)
  · obtain ⟨i, hpc, -, hexec⟩ := h.of_abort hevent
    have hlt := hc.failing w t i hpc hexec
    rw [count_append_toList, if_pos hevent]
    omega
  · rw [count_abort_eq hevent]
    exact le_trans (hc.le t) hgrow

lemma valid_step (hc : Covered log s) (hs : Waiting cfg s) (hv : Versions cfg hist s)
    (h : Step cfg s.shared (s.pc w) mv p') {reads : List (ReadDescriptor K)}
    (hcur : Current (s.move w (mv.perform s.shared) p') t reads)
    (heq : (log ++ ((s.pc w).event p').toList).count (.abort t) =
      disturbedBelow (log ++ ((s.pc w).event p').toList) t)
    {r : ReadDescriptor K} (hr : r ∈ reads) :
    r.isValid (mv.perform s.shared).data t = true := by
  have habort : (s.pc w).event p' ≠ some (.abort t) := fun hevent => by
    obtain ⟨i, hpc, rfl, hexec⟩ := h.of_abort hevent
    rw [hpc] at h
    cases h
    exact not_current_of_abort hs hexec (Function.update_self ..) reads hcur
  obtain ⟨hgrow, hdisturb⟩ := disturbedBelow_append log ((s.pc w).event p') t
  have hle := hc.le t
  rw [count_abort_eq habort] at heq
  rcases hcur.of_step h hr with hvalid | ⟨reads', hcur', hr'⟩
  · exact hvalid
  · have hold := hc.valid t reads' hcur' (by omega) r hr'
    rcases h.isValid_or_disturbs (hv.holds w) hold with hvalid | ⟨j, hj, hdisturbs⟩
    · exact hvalid
    · -- a change below would not be used up
      have hlt := hdisturb j hj (Pc.event_of_disturbs hdisturbs)
      omega

lemma passed_step (hc : Covered log s) (h : Step cfg s.shared (s.pc w) mv p') :
    ∀ w' t i, ((s.move w (mv.perform s.shared) p').pc w').validating = some (t, i) →
      ((mv.perform s.shared).txnStatus t).Passed i := by
  refine Global.forall_pc_move (P := fun _ (q : Pc K V O E) => ∀ t i,
    q.validating = some (t, i) → ((mv.perform s.shared).txnStatus t).Passed i) ?_ ?_
  · intro t i hnew
    rcases h.validating hnew with hold | hexec
    · exact h.passed (hc.passed w t i hold)
    · rw [hexec]
      exact le_refl i
  · exact fun w' _ t i hold => h.passed (hc.passed w' t i hold)

/-- A version under validation that is `Executed` after the step was `Executed`
before it. -/
lemma executed_of_validating (hc : Covered log s) (h : Step cfg s.shared (s.pc w) mv p')
    (w' : Fin m) (hpc : (s.pc w').validating = some (t, i))
    (hnew : (mv.perform s.shared).txnStatus t = .executed i) :
    s.shared.txnStatus t = .executed i := by
  by_contra hold
  have hpassed := hc.passed w' t i hpc
  rw [(h.recording_of_executed hnew hold).2] at hpassed
  exact absurd hpassed (lt_irrefl i)

lemma testing_step (hc : Covered log s) (hs : Waiting cfg s)
    (h : Step cfg s.shared (s.pc w) mv p') : ∀ w' t i rest,
      (s.move w (mv.perform s.shared) p').pc w' = .validateReads t i rest →
      (mv.perform s.shared).txnStatus t = .executed i →
      ∀ r ∈ rest, ∃ reads, (mv.perform s.shared).inputs t = some reads ∧ r ∈ reads := by
  intro w' t i rest hpc hexec r hr
  by_cases hne : w' = w
  · rw [hne, Global.pc_move_self] at hpc
    obtain ⟨rfl, hinputs | ⟨r', hold⟩⟩ := h.testing_cases hpc
    · exact ⟨rest, hinputs, hr⟩
    · exact hc.testing w t i _ hold hexec r (List.mem_cons_of_mem _ hr)
  · rw [Global.pc_move_of_ne s hne] at hpc
    have hold := hc.executed_of_validating h w' (by rw [hpc]; rfl) hexec
    have hedit : (s.pc w).editing ≠ some t := fun hedit => by
      have hbusy := (hs.claim_unique (Pc.mem_claims_of_editing hedit)).2.1
      rw [hold] at hbusy
      cases hbusy
    rw [(h.sameAt hedit).inputs]
    exact hc.testing w' t i rest hpc hold r hr

lemma failing_step (hc : Covered log s) (h : Step cfg s.shared (s.pc w) mv p') : ∀ w' t i,
    (s.move w (mv.perform s.shared) p').pc w' = .tryAbort t i →
      (mv.perform s.shared).txnStatus t = .executed i →
      (log ++ ((s.pc w).event p').toList).count (.abort t) <
        disturbedBelow (log ++ ((s.pc w).event p').toList) t := by
  intro w' t i hpc hexec
  have hgrow := (disturbedBelow_append log ((s.pc w).event p') t).1
  have habort : (s.pc w).event p' ≠ some (.abort t) := fun hevent => by
    obtain ⟨j, -, rfl, -⟩ := h.of_abort hevent
    exact absurd ((Function.update_self ..).symm.trans hexec) (by simp)
  rw [count_abort_eq habort]
  refine lt_of_lt_of_le ?_ hgrow
  by_cases hne : w' = w
  · rw [hne, Global.pc_move_self] at hpc
    obtain ⟨rfl, r, rest, hold, hinvalid⟩ := h.failing_cases hpc
    obtain ⟨reads, hinputs, hr⟩ := hc.testing w t i _ hold hexec r List.mem_cons_self
    refine lt_of_le_of_ne (hc.le t) fun heq => hinvalid ?_
    exact hc.valid t reads (Or.inr ⟨hinputs, Or.inr ⟨i, hexec⟩⟩) heq r hr
  · rw [Global.pc_move_of_ne s hne] at hpc
    exact hc.failing w' t i hpc
      (hc.executed_of_validating h w' (by rw [hpc]; rfl) hexec)

lemma step (hc : Covered log s) (hs : Waiting cfg s) (hv : Versions cfg hist s)
    (h : Step cfg s.shared (s.pc w) mv p') :
    Covered (log ++ ((s.pc w).event p').toList) (s.move w (mv.perform s.shared) p') where
  le := hc.le_step h
  valid := fun _ _ hcur heq _ hr => hc.valid_step hs hv h hcur heq hr
  passed := hc.passed_step h
  testing := hc.testing_step hs h
  failing := hc.failing_step h

omit [DecidableEq K] in
lemma panic (hc : Covered log s) (w : Fin m) :
    Covered log (s.panic w (Move.dropGuard.perform s.shared)) where
  le := hc.le
  valid := by
    intro t reads hcur
    simp only [Current, Global.pc_panic] at hcur
    exact hc.valid t reads hcur
  passed := by
    intro w' t i hold
    rw [Global.pc_panic] at hold
    exact hc.passed w' t i hold
  testing := by
    intro w' t i rest hpc
    rw [Global.pc_panic] at hpc
    exact hc.testing w' t i rest hpc
  failing := by
    intro w' t i hpc
    rw [Global.pc_panic] at hpc
    exact hc.failing w' t i hpc

omit [DecidableEq K] in
lemma initial (cfg : Setup T K V O E) (m : ℕ) : Covered [] (LeapState.initial cfg m) where
  le := fun _ => Nat.zero_le _
  valid := by
    rintro t reads (⟨w, hcaptured⟩ | ⟨hinputs, -⟩)
    · cases hcaptured
    · cases hinputs
  passed := fun _ _ _ hold => by cases hold
  testing := fun _ _ _ _ hpc => by cases hpc
  failing := fun _ _ _ hpc => by cases hpc

end Covered

theorem covered_leapRun (cfg : Setup T K V O E) (acts : List (Fin m × ℕ)) :
    Covered (leapEvents cfg acts) (leapRun (m := m) cfg acts) := by
  refine (leapEvents_induction (I := fun log s => Waiting cfg s ∧ (∃ hist, Versions cfg hist s) ∧
    Covered log s) ⟨Waiting.initial cfg m, ⟨_, Versions.initial cfg m⟩, .initial cfg m⟩ ?_ ?_
    acts).2.2
  · rintro log s w mv p' ⟨hs, ⟨hist, hv⟩, hc⟩ h
    exact ⟨hs.step h, hv.step hs h, hc.step hs hv h⟩
  · rintro log s w ⟨hs, ⟨hist, hv⟩, hc⟩
    exact ⟨hs.panic w, ⟨hist, hv.panic w⟩, hc.panic w⟩

/-! ### The bound -/

/-- Aborts that are bounded by changes below, which are bounded by aborts, grow
at most geometrically. -/
lemma two_mul_add_one_le_pow {M : ℕ} {aborts changes : ℕ → ℕ}
    (hchanges : ∀ t, changes t ≤ 2 * M * aborts t + M)
    (haborts : ∀ t, aborts t ≤ ∑ j ∈ range t, changes j) (t : ℕ) :
    2 * aborts t + 1 ≤ (2 * M + 1) ^ t := by
  have hstep (t : ℕ) : 2 * aborts t + 1 ≤ 2 * M * ∑ j ∈ range t, (2 * aborts j + 1) + 1 := by
    have hsum : 2 * ∑ j ∈ range t, changes j ≤ 2 * M * ∑ j ∈ range t, (2 * aborts j + 1) := by
      rw [Finset.mul_sum, Finset.mul_sum]
      refine Finset.sum_le_sum fun j _ => ?_
      calc 2 * changes j ≤ 2 * (2 * M * aborts j + M) := Nat.mul_le_mul_left 2 (hchanges j)
        _ = 2 * M * (2 * aborts j + 1) := by ring
    have hle := haborts t
    omega
  have hgrow : ∀ t, 2 * M * (∑ j ∈ range t, (2 * aborts j + 1)) + 1 ≤ (2 * M + 1) ^ t := by
    intro t
    induction t with
    | zero => simp
    | succ t ih =>
        rw [Finset.sum_range_succ]
        calc 2 * M * (∑ j ∈ range t, (2 * aborts j + 1) + (2 * aborts t + 1)) + 1
            = (2 * M * (∑ j ∈ range t, (2 * aborts j + 1)) + 1) + 2 * M * (2 * aborts t + 1) := by
              ring
          _ ≤ (2 * M + 1) ^ t + 2 * M * (2 * M + 1) ^ t :=
              Nat.add_le_add ih (Nat.mul_le_mul_left _ (le_trans (hstep t) ih))
          _ = (2 * M + 1) ^ (t + 1) := by ring
  exact le_trans (hstep t) (hgrow t)

/-- **Bounded retry.** If the transactions of the block return at most `M`
writes, transaction `t` reaches `finish_execution` at most `((2M+1)^t + 1) / 2`
times, for every number of workers, every window and every interleaving. -/
theorem bounded_retry (cfg : Setup T K V O E) (M : ℕ) (hM : cfg.WritesAtMost M) (m : ℕ)
    (acts : List (Fin m × ℕ)) (t : ℕ) :
    2 * (leapEvents cfg acts).count (.finish t) ≤ (2 * M + 1) ^ t + 1 := by
  have hfinished := finished_leapRun cfg acts t
  have hbound := two_mul_add_one_le_pow (budget_leapRun hM acts).count_disturb_le
    (covered_leapRun cfg acts).le t
  have hsettled (st : TransactionStatus) : st.settled ≤ 1 := by
    cases st <;> simp [TransactionStatus.settled]
  have hone := hsettled ((leapRun cfg acts).shared.txnStatus t)
  omega

/-- A block of two transactions under a window of 1: transaction 0 writes two
keys, transaction 1 reads both. -/
def twoKeys : Setup ℕ ℕ ℕ (List (ℕ × ℕ)) Unit where
  task :=
    { executeTransaction := fun txn =>
        if txn = 0 then .ret (.success [(0, 1), (1, 1)])
        else .read 0 fun _ => .read 1 fun _ => .ret (.success [])
      getWrites := id
      skipOutput := [] }
  block := [0, 1]
  backpressureWindow := 1
  segmentBounds := []
  txnToSegment := []

/-- Worker 0 stops before each of its two writes, and worker 1 executes
transaction 1 in between. -/
def pausedWrites : List (Fin 2 × ℕ) :=
  List.replicate 11 (first, 0) ++ List.replicate 30 (second, 0) ++ [(first, 0)] ++
    List.replicate 33 (second, 0) ++ [(first, 0)] ++ List.replicate 24 (second, 0)

/-- Transaction 1 is executed three times: each write of transaction 0
invalidates the reads of the execution before it. The bound is reached. -/
theorem bounded_retry_twoKeys :
    (leapEvents twoKeys pausedWrites).count (.finish 1) = 3 ∧
      2 * (leapEvents twoKeys pausedWrites).count (.finish 1) ≤ (2 * 2 + 1) ^ 1 + 1 := by
  have hM : twoKeys.WritesAtMost 2 := by
    intro txn _
    change (if txn = 0 then _ else _ : Body ℕ ℕ (ExecutionStatus (List (ℕ × ℕ)) Unit)).Returns _
    split
    · exact le_refl 2
    · exact fun _ _ => Nat.zero_le 2
  exact ⟨by decide +kernel, bounded_retry twoKeys 2 hM 2 pausedWrites 1⟩

/-- Neither the index nor the window bounds the executions. -/
theorem three_executions :
    (∀ txn, (twoKeys.task.executeTransaction txn).Succeeds) ∧
      1 + 1 < (leapEvents twoKeys pausedWrites).count (.finish 1) ∧
      twoKeys.backpressureWindow + 1 < (leapEvents twoKeys pausedWrites).count (.finish 1) := by
  refine ⟨fun txn => ?_, by decide +kernel⟩
  change (if txn = 0 then _ else _ : Body ℕ ℕ (ExecutionStatus (List (ℕ × ℕ)) Unit)).Succeeds
  split
  · trivial
  · exact fun _ _ => trivial

end StablecoinSystem
