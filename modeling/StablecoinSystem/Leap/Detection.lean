import StablecoinSystem.Leap.Pending

/-!
Termination detection.

`check_done` reads four counters one after the other. The block is over
(`Final`) when every transaction below the stop index is executed, its recorded
reads are valid, both indices have passed the stop index and no worker acts on
a transaction below it; `Final.step` says that this stays so. The invariant
`Detection` says what a worker inside `check_done` has learnt:

* while `decrease_cnt` shows the observed value and nobody is about to count a
  decrease, an index that was read at or above the stop index is still there;
* if at that point no task is active, the block is over
  (`Detection.final_of_inactive`).

None of this speaks of a run in which a worker has panicked.
-/

namespace StablecoinSystem

open Finset

variable {T K V O E : Type}

namespace Pc

/-- The worker holds a `TaskGuard`. -/
def guarded : Pc K V O E → Bool
  | .nextTask | .loadValidation | .loadExecution _ | .validateLoad _ | .validateStop _ _
  | .validateGuard _ | .executeLoad | .executeStop _ | .executeGuard | .doneCnt _ _
  | .doneValidation _ _ _ | .doneExecution _ _ _ _ | .doneTasks _ _ _ _ _ | .doneAgain _ _ _
  | .doneStore _ _ | .finished => false
  | _ => true

/-- The worker has lowered an index and not counted it yet. -/
def counting : Pc K V O E → Bool
  | .countExecution _ _ _ | .countValidation | .abortCountValidation _ => true
  | _ => false

/-- The transactions a worker acts on. -/
def touches : Pc K V O E → List ℕ
  | .validateCheck _ idx | .executeIncarnate idx | .readSet idx _ | .precheck idx _ _
  | .precheckDep idx _ _ _ | .precheckPush idx _ _ | .body idx _ _ _ _ | .readDep idx _ _ _ _ _
  | .readPush idx _ _ _ _ | .prevWrites idx _ _ _ | .applyWrites idx _ _ _ _ _ _
  | .writeFailed idx _ | .deletes idx _ _ _ _ _ | .recordInput idx _ _ _ _ | .recordOutput idx _ _ _
  | .setExecuted idx _ _ | .takeDeps idx _ _ | .countExecution idx _ _
  | .compareValidation idx _ _ | .decreaseValidation idx | .validate idx _
  | .validateReads idx _ _ | .tryAbort idx _ | .writeSet idx _ | .markEstimates idx _ _
  | .setAborted idx _ | .abortValidation idx | .abortCountValidation idx | .abortExecution idx
  | .abortIncarnate idx => [idx]
  | .resume idx _ _ deps minDep => idx :: (deps ++ minDep.toList)
  | .decreaseExecution idx _ _ target => [idx, target]
  | _ => []

variable {p : Pc K V O E} {t : ℕ}

lemma mem_touches_resume {idx inc : ℕ} {outside : Bool} {deps : List ℕ} {minDep : Option ℕ} :
    t ∈ (resume idx inc outside deps minDep : Pc K V O E).touches ↔
      t = idx ∨ t ∈ deps ∨ minDep = some t := by
  change t ∈ idx :: (deps ++ minDep.toList) ↔ _
  rw [List.mem_cons, List.mem_append, Option.mem_toList]

lemma claims_subset_touches (h : t ∈ p.claims) : t ∈ p.touches := by
  cases p with
  | body idx inc reads dependency rest =>
      cases dependency with
      | true => cases h
      | false => exact h
  | resume idx inc outside deps minDep =>
      exact List.mem_cons_of_mem _ (List.mem_append_left _ h)
  | _ => first | exact h | cases h

lemma guarded_of_touches (h : t ∈ p.touches) : p.guarded = true := by
  cases p <;> first | rfl | cases h

lemma guarded_of_counting (h : p.counting = true) : p.guarded = true := by
  cases p <;> first | rfl | cases h

lemma guarded_of_willExecute (h : p.willExecute t) : p.guarded = true := by
  cases p <;> first | rfl | cases h

lemma guarded_of_willValidate {i : ℕ} {r : ReadDescriptor K} (h : p.willValidate t i r) :
    p.guarded = true := by
  cases p <;> first | rfl | cases h

end Pc

lemma minWith_eq_or (dep : ℕ) (minDep : Option ℕ) :
    minWith dep minDep = dep ∨ minDep = some (minWith dep minDep) := by
  cases minDep with
  | none => exact Or.inl rfl
  | some target =>
      rcases min_choice target dep with hmin | hmin
      · exact Or.inr (congrArg some hmin.symm)
      · exact Or.inl hmin

lemma unguarded_resume (k : Resume) : (k.pc : Pc K V O E).guarded = false ∧
    (k.pc : Pc K V O E).counting = false ∧ (k.pc : Pc K V O E).touches = [] :=
  k.pc_induction (P := fun p => p.guarded = false ∧ p.counting = false ∧ p.touches = [])
    ⟨rfl, rfl, rfl⟩ ⟨rfl, rfl, rfl⟩ ⟨rfl, rfl, rfl⟩

/-! ### One step -/

section Step

variable [DecidableEq K] {cfg : Setup T K V O E} {sh : Shared K V O E} {p p' : Pc K V O E}
  {mv : Move K V O E} {t : ℕ}

/-- The number of active tasks follows the guards. -/
lemma Step.numActiveTasks (h : Step cfg sh p mv p') :
    (mv.perform sh).numActiveTasks + (if p.guarded then 1 else 0) =
      sh.numActiveTasks + if p'.guarded then 1 else 0 := by
  cases h with
  | dropGuard hactive =>
      rw [(unguarded_resume _).1]
      change sh.numActiveTasks - 1 + 1 = sh.numActiveTasks + 0
      omega
  | schedule | doneTasksNo | doneAgainNo | doneStore => rw [(unguarded_resume _).1]; rfl
  | _ => rfl

/-- A worker that is about to count a decrease counts it. -/
lemma Step.eq_countDecrease (h : Step cfg sh p mv p') (hp : p.counting = true) :
    mv = .countDecrease := by
  cases h <;> first | rfl | cases hp

lemma Step.decreaseCnt_le (h : Step cfg sh p mv p') :
    sh.decreaseCnt ≤ (mv.perform sh).decreaseCnt := by
  cases h <;> first | exact le_refl _ | exact Nat.le_succ _

lemma Step.stopIdx_le (h : Step cfg sh p mv p') : (mv.perform sh).stopIdx ≤ sh.stopIdx := by
  cases h <;> first | exact le_refl _ | exact min_le_left _ _

/-- An index is lowered by a worker that goes on to count the decrease. -/
lemma Step.validationIdx_ge (h : Step cfg sh p mv p') (hp' : p'.counting = false) :
    sh.validationIdx ≤ (mv.perform sh).validationIdx := by
  cases h with
  | validateFetch => exact Nat.le_succ _
  | keepValidation hle => exact le_min (le_refl _) hle
  | abortKeep hle => exact le_min (le_refl _) hle
  | decreaseValidation hlt => cases hp'
  | abortDecrease hlt => cases hp'
  | _ => exact le_refl _

lemma Step.executionIdx_ge (h : Step cfg sh p mv p') (hp' : p'.counting = false) :
    sh.executionIdx ≤ (mv.perform sh).executionIdx := by
  cases h with
  | executeFetch => exact Nat.le_succ _
  | keepExecution hle => exact le_min (le_refl _) hle
  | decreaseExecution hlt => cases hp'
  | _ => exact le_refl _

/-- A worker changes the status of the transactions it acts on only. -/
lemma Step.txnStatus_of_notMem (h : Step cfg sh p mv p') (ht : t ∉ p.touches) :
    (mv.perform sh).txnStatus t = sh.txnStatus t := by
  rcases h.transition t with heq | ⟨st, st', -, -, htransition⟩
  · exact heq
  · refine absurd ?_ ht
    cases htransition with
    | incarnate hp hlt => rcases hp with rfl | rfl <;> exact List.mem_cons_self
    | resume => exact Pc.mem_touches_resume.mpr (Or.inr (Or.inl List.mem_cons_self))
    | setExecuted | tryAbort | setAborted => exact List.mem_cons_self

/-- A worker turns to a transaction that it fetched from an index or drained
from the list of one it acted on. -/
lemma Step.touches (h : Step cfg sh p mv p') (ht : t ∈ p'.touches) :
    t ∈ p.touches ∨ t = sh.validationIdx ∨ t = sh.executionIdx ∨
      ∃ d ∈ p.touches, t ∈ sh.txnDependency d := by
  cases h with
  | validateFetch => exact Or.inr (Or.inl (List.mem_singleton.mp ht))
  | executeFetch => exact Or.inr (Or.inr (Or.inl (List.mem_singleton.mp ht)))
  | takeDeps hlock =>
      rcases List.mem_cons.mp ht with rfl | ht
      · exact Or.inl List.mem_cons_self
      · rw [Option.toList_none, List.append_nil] at ht
        exact Or.inr (Or.inr (Or.inr ⟨_, List.mem_cons_self, ht⟩))
  | @resume idx inc outside dep j deps minDep hstatus =>
      left
      rw [Pc.mem_touches_resume] at ht ⊢
      rcases ht with rfl | ht | ht
      · exact Or.inl rfl
      · exact Or.inr (Or.inl (List.mem_cons_of_mem _ ht))
      · cases ht
        rcases minWith_eq_or dep minDep with heq | heq
        · exact Or.inr (Or.inl (List.mem_cons.mpr (Or.inl heq)))
        · exact Or.inr (Or.inr heq)
  | schedule | doneTasksNo | doneAgainNo | doneStore | dropGuard hactive =>
      rw [(unguarded_resume _).2.2] at ht
      cases ht
  | decreaseExecution hlt => exact Or.inl (List.mem_cons.mpr (Or.inl (List.mem_singleton.mp ht)))
  | keepExecution hlt => exact Or.inl (List.mem_cons.mpr (Or.inl (List.mem_singleton.mp ht)))
  | _ => first | exact Or.inl ht | cases ht

end Step

/-! ### The end of a block -/

variable {m : ℕ}

/-- The transactions below `num` are done with. -/
structure Final (cfg : Setup T K V O E) (num : ℕ) (s : LeapState m K V O E) : Prop where
  validation : num ≤ s.shared.validationIdx
  execution : num ≤ s.shared.executionIdx
  executed : ∀ t < num, t < cfg.numTxns → ∃ i, s.shared.txnStatus t = .executed i
  valid : ∀ t < num, t < cfg.numTxns → ∀ reads, s.shared.inputs t = some reads →
    ∀ r ∈ reads, r.isValid s.shared.data t = true
  far : ∀ w, ∀ t ∈ (s.pc w).touches, num ≤ t

/-- Nobody is about to count a decrease. -/
def Quiet (s : LeapState m K V O E) : Prop := ∀ w, (s.pc w).counting = false

/-- What a worker inside `check_done` has learnt. -/
def Learnt (cfg : Setup T K V O E) (s : LeapState m K V O E) : Pc K V O E → Prop
  | .doneCnt _ num => s.shared.stopIdx ≤ num
  | .doneValidation _ num observed =>
      s.shared.stopIdx ≤ num ∧ observed ≤ s.shared.decreaseCnt
  | .doneExecution _ num observed valIdx =>
      s.shared.stopIdx ≤ num ∧ observed ≤ s.shared.decreaseCnt ∧
        (num ≤ valIdx → observed = s.shared.decreaseCnt → Quiet s → num ≤ s.shared.validationIdx)
  | .doneTasks _ num observed valIdx execIdx =>
      s.shared.stopIdx ≤ num ∧ observed ≤ s.shared.decreaseCnt ∧
        (num ≤ valIdx → num ≤ execIdx → observed = s.shared.decreaseCnt → Quiet s →
          num ≤ s.shared.validationIdx ∧ num ≤ s.shared.executionIdx)
  | .doneAgain _ num observed =>
      s.shared.stopIdx ≤ num ∧ observed ≤ s.shared.decreaseCnt ∧
        (observed = s.shared.decreaseCnt → Final cfg num s)
  | .doneStore _ num => s.shared.stopIdx ≤ num ∧ Final cfg num s
  | .finished => s.shared.doneMarker = true
  | _ => True

/-- The invariant of termination detection. -/
structure Detection (cfg : Setup T K V O E) (s : LeapState m K V O E) : Prop where
  active : tally (fun wk => if wk.pc.guarded then 1 else 0) s = s.shared.numActiveTasks
  learnt : ∀ w, Learnt cfg s (s.pc w)
  done : s.shared.doneMarker = true → ∃ num, s.shared.stopIdx ≤ num ∧ Final cfg num s

lemma learnt_resume {cfg : Setup T K V O E} (s : LeapState m K V O E) (k : Resume) :
    Learnt cfg s k.pc :=
  k.pc_induction (P := Learnt cfg s) trivial trivial trivial

variable [DecidableEq K] {cfg : Setup T K V O E} {hist : Values K V} {s : LeapState m K V O E}
  {w : Fin m} {mv : Move K V O E} {p' : Pc K V O E} {num : ℕ}

/-- **Once over, a block stays over.** -/
theorem Final.step (hf : Final cfg num s) (hs : Waiting cfg s)
    (h : Step cfg s.shared (s.pc w) mv p') : Final cfg num (s.move w (mv.perform s.shared) p') := by
  have hbelow {t : ℕ} (ht : t < num) : t ∉ (s.pc w).touches := fun hmem => by
    have := hf.far w t hmem
    omega
  have hedit {t : ℕ} (ht : t < num) : (s.pc w).editing ≠ some t := fun hedit =>
    hbelow ht (Pc.claims_subset_touches (Pc.mem_claims_of_editing hedit))
  refine ⟨?_, ?_, fun t ht htn => ?_, fun t ht htn reads hreads r hr => ?_, ?_⟩
  · have hval := hf.validation
    have hfar := hf.far w
    rw [Global.shared_move]
    generalize s.pc w = p at h hfar
    cases h with
    | validateFetch => exact Nat.le_succ_of_le hval
    | decreaseValidation hlt | keepValidation hle =>
        exact le_min hval (hfar _ List.mem_cons_self)
    | abortDecrease hlt | abortKeep hle =>
        exact le_min hval (Nat.le_succ_of_le (hfar _ List.mem_cons_self))
    | _ => exact hval
  · have hexec := hf.execution
    have hfar := hf.far w
    rw [Global.shared_move]
    generalize s.pc w = p at h hfar
    cases h with
    | executeFetch => exact Nat.le_succ_of_le hexec
    | decreaseExecution hlt | keepExecution hle =>
        exact le_min hexec (hfar _ (List.mem_cons_of_mem _ List.mem_cons_self))
    | _ => exact hexec
  · rw [Global.shared_move, h.txnStatus_of_notMem (hbelow ht)]
    exact hf.executed t ht htn
  · rw [Global.shared_move] at hreads ⊢
    rw [(h.sameAt (hedit ht)).inputs] at hreads
    refine isValid_congr (hf.valid t ht htn reads hreads r hr) fun j hj => ?_
    exact (h.sameAt (hedit (lt_trans hj ht))).cell r.accessPath
  · refine Global.forall_pc_move (P := fun _ (p : Pc K V O E) => ∀ t ∈ p.touches, num ≤ t)
      (fun t ht => ?_) fun w' _ => hf.far w'
    rcases h.touches ht with hmem | rfl | rfl | ⟨d, hd, hmem⟩
    · exact hf.far w t hmem
    · exact hf.validation
    · exact hf.execution
    · have hlt := (hs.waits d t hmem).1
      have hle := hf.far w d hd
      omega

omit [DecidableEq K] in
/-- If no worker has a task and execution has passed `t`, then `t` has been
executed: it is not ready, nobody aborts it, and by induction it waits for
nobody below it. -/
lemma Waiting.executed_of_inactive (hs : Waiting cfg s) (hr : Runnable cfg s)
    (hidle : ∀ w, (s.pc w).guarded = false) (t : ℕ) (ht : t < s.shared.executionIdx)
    (htn : t < cfg.numTxns) : ∃ i, s.shared.txnStatus t = .executed i := by
  have hclaims (w : Fin m) (t : ℕ) : t ∉ (s.pc w).claims := fun hmem => by
    have hguarded := Pc.guarded_of_touches (Pc.claims_subset_touches hmem)
    rw [hidle w] at hguarded
    cases hguarded
  induction t using Nat.strong_induction_on with
  | _ t ih =>
      cases hstatus : s.shared.txnStatus t with
      | executed i => exact ⟨i, rfl⟩
      | readyToExecute i =>
          rcases hr t htn i hstatus with hle | ⟨w, hw⟩
          · omega
          · have hguarded := Pc.guarded_of_willExecute hw
            rw [hidle w] at hguarded
            cases hguarded
      | aborting i =>
          -- busy, but neither listed, since not executing, nor claimed
          have hclaimed := hs.claimed t
          have hlisted : listings cfg s t = 0 := by
            by_contra hne
            obtain ⟨j, hj⟩ := hs.executing_of_listings (Nat.pos_of_ne_zero hne)
            rw [hstatus] at hj
            cases hj
          rw [hstatus, TransactionStatus.busy] at hclaimed
          rw [listings] at hlisted
          have htally : 0 < tally (fun wk => wk.pc.claims.count t) s := by omega
          obtain ⟨w, hw⟩ := exists_of_tally_pos htally
          exact absurd (List.count_pos_iff.mp hw) (hclaims w t)
      | executing i =>
          obtain ⟨d, hd, ⟨hmem, hawait⟩ | ⟨w, j, outside, deps, minDep, hpc, -⟩⟩ :=
            hs.listed_of_not_running hstatus fun w j hrun =>
              hclaims w t (Pc.mem_claims.mpr (Or.inl ⟨j, hrun⟩))
          · obtain ⟨j, hj⟩ := ih d hd (by omega) (by omega)
            rcases hawait with hnot | ⟨w, i', outside, hpc⟩
            · exact absurd hj (hnot j)
            · have hguarded := hidle w
              rw [hpc] at hguarded
              cases hguarded
          · have hguarded := hidle w
            rw [hpc] at hguarded
            cases hguarded

omit [DecidableEq K] in
/-- **If no task is active and both indices have passed `num`, the block is
over.** -/
theorem final_of_inactive (hs : Waiting cfg s) (hr : Runnable cfg s) (hval : Validated s)
    (hidle : ∀ w, (s.pc w).guarded = false) (hvalidation : num ≤ s.shared.validationIdx)
    (hexecution : num ≤ s.shared.executionIdx) : Final cfg num s := by
  have hexecuted (t : ℕ) (ht : t < num) (htn : t < cfg.numTxns) :=
    hs.executed_of_inactive hr hidle t (lt_of_lt_of_le ht hexecution) htn
  refine ⟨hvalidation, hexecution, hexecuted, ?_, ?_⟩
  · intro t ht htn reads hreads r hrmem
    obtain ⟨i, hi⟩ := hexecuted t ht htn
    rcases hval t i reads hi hreads r hrmem with hvalid | hle | ⟨w, hw⟩
    · exact hvalid
    · omega
    · have hguarded := Pc.guarded_of_willValidate hw
      rw [hidle w] at hguarded
      cases hguarded
  · intro w t ht
    have hguarded := Pc.guarded_of_touches ht
    rw [hidle w] at hguarded
    cases hguarded

/-! ### The invariant of `check_done` -/

/-- While the count stands still, nobody was about to count. -/
lemma Quiet.of_step (h : Step cfg s.shared (s.pc w) mv p')
    (hquiet : Quiet (s.move w (mv.perform s.shared) p'))
    (hcnt : (mv.perform s.shared).decreaseCnt = s.shared.decreaseCnt) :
    Quiet s ∧ p'.counting = false := by
  have hself : p'.counting = false := by
    have hw := hquiet w
    rwa [Global.pc_move_self] at hw
  refine ⟨fun w' => ?_, hself⟩
  by_cases hne : w' = w
  · subst hne
    by_contra hcounting
    have hmv := h.eq_countDecrease (Bool.eq_true_of_not_eq_false hcounting)
    rw [hmv] at hcnt
    exact absurd hcnt (Nat.succ_ne_self _)
  · have hw' := hquiet w'
    rwa [Global.pc_move_of_ne s hne] at hw'

/-- What a worker inside `check_done` has learnt survives the steps of others. -/
lemma Learnt.step {q : Pc K V O E} (hq : Learnt cfg s q) (hs : Waiting cfg s)
    (h : Step cfg s.shared (s.pc w) mv p') : Learnt cfg (s.move w (mv.perform s.shared) p') q := by
  have hstop := h.stopIdx_le
  have hcnt := h.decreaseCnt_le
  -- if the count still shows the observed value, no index has been lowered
  have hstill {observed : ℕ} (hle : observed ≤ s.shared.decreaseCnt)
      (heq : observed = (mv.perform s.shared).decreaseCnt)
      (hquiet : Quiet (s.move w (mv.perform s.shared) p')) :
      observed = s.shared.decreaseCnt ∧ Quiet s ∧
        s.shared.validationIdx ≤ (mv.perform s.shared).validationIdx ∧
        s.shared.executionIdx ≤ (mv.perform s.shared).executionIdx := by
    obtain ⟨hquiet, hself⟩ := hquiet.of_step h (by omega)
    exact ⟨by omega, hquiet, h.validationIdx_ge hself, h.executionIdx_ge hself⟩
  cases q with
  | doneCnt k num => exact le_trans hstop hq
  | doneValidation k num observed => exact ⟨le_trans hstop hq.1, le_trans hq.2 hcnt⟩
  | doneExecution k num observed valIdx =>
      obtain ⟨hnum, hobs, hidx⟩ := hq
      refine ⟨le_trans hstop hnum, le_trans hobs hcnt, fun hval heq hquiet => ?_⟩
      obtain ⟨heq, hquiet, hvalidation, -⟩ := hstill hobs heq hquiet
      exact le_trans (hidx hval heq hquiet) hvalidation
  | doneTasks k num observed valIdx execIdx =>
      obtain ⟨hnum, hobs, hidx⟩ := hq
      refine ⟨le_trans hstop hnum, le_trans hobs hcnt, fun hval hexec heq hquiet => ?_⟩
      obtain ⟨heq, hquiet, hvalidation, hexecution⟩ := hstill hobs heq hquiet
      obtain ⟨h₁, h₂⟩ := hidx hval hexec heq hquiet
      exact ⟨le_trans h₁ hvalidation, le_trans h₂ hexecution⟩
  | doneAgain k num observed =>
      obtain ⟨hnum, hobs, hfinal⟩ := hq
      refine ⟨le_trans hstop hnum, le_trans hobs hcnt, fun heq => ?_⟩
      change observed = (mv.perform s.shared).decreaseCnt at heq
      exact (hfinal (by omega)).step hs h
  | doneStore k num => exact ⟨le_trans hstop hq.1, hq.2.step hs h⟩
  | finished =>
      have hq : s.shared.doneMarker = true := hq
      change (mv.perform s.shared).doneMarker = true
      cases mv <;> first | exact hq | rfl
  | _ => trivial

namespace Detection

omit [DecidableEq K] in
lemma unguarded_of_inactive (hd : Detection cfg s) (h : s.shared.numActiveTasks = 0) (w : Fin m) :
    (s.pc w).guarded = false := by
  have hle := le_tally (fun wk => if wk.pc.guarded then 1 else 0) s w
  rw [hd.active, h] at hle
  change (if (s.pc w).guarded then 1 else 0) ≤ 0 at hle
  by_contra hguarded
  rw [if_pos (Bool.eq_true_of_not_eq_false hguarded)] at hle
  omega

/-- What a worker learns by a step of its own. -/
lemma learnt_self (hd : Detection cfg s) (hs : Waiting cfg s) (hr : Runnable cfg s)
    (hval : Validated s) (h : Step cfg s.shared (s.pc w) mv p') :
    Learnt cfg (s.move w (mv.perform s.shared) p') p' := by
  have hlearnt := hd.learnt w
  have hstep := h
  generalize hpc : s.pc w = p at h hlearnt
  cases h with
  | done hdone => exact hdone
  | validateExhausted => exact le_refl _
  | executeExhausted => exact le_refl _
  | doneCnt => exact ⟨hlearnt, le_refl _⟩
  | doneValidation => exact ⟨hlearnt.1, hlearnt.2, fun hle _ _ => hle⟩
  | doneExecution =>
      obtain ⟨hnum, hobs, hidx⟩ := hlearnt
      refine ⟨hnum, hobs, fun hle hexec heq hquiet => ⟨hidx hle heq ?_, hexec⟩⟩
      exact (hquiet.of_step hstep rfl).1
  | doneTasks hle hexec hactive =>
      obtain ⟨hnum, hobs, hidx⟩ := hlearnt
      refine ⟨hnum, hobs, fun heq => ?_⟩
      have hidle := hd.unguarded_of_inactive hactive
      have hquiet : Quiet s := fun w' => by
        by_contra hcounting
        have hguarded := Pc.guarded_of_counting (Bool.eq_true_of_not_eq_false hcounting)
        rw [hidle w'] at hguarded
        cases hguarded
      obtain ⟨hvalidation, hexecution⟩ := hidx hle hexec heq hquiet
      exact (final_of_inactive hs hr hval hidle hvalidation hexecution).step hs hstep
  | doneAgain heq => exact ⟨hlearnt.1, (hlearnt.2.2 heq).step hs hstep⟩
  | schedule | doneTasksNo | doneAgainNo | doneStore | dropGuard hactive => exact learnt_resume _ _
  | finished => exact hlearnt
  | _ => trivial

theorem step (hd : Detection cfg s) (hs : Waiting cfg s) (hr : Runnable cfg s)
    (hval : Validated s) (h : Step cfg s.shared (s.pc w) mv p') :
    Detection cfg (s.move w (mv.perform s.shared) p') where
  active := by
    have hmove := tally_move (fun wk => if wk.pc.guarded then 1 else 0) s w
      (mv.perform s.shared) p'
    change _ + (if (s.pc w).guarded then 1 else 0) = _ + (if p'.guarded then 1 else 0) at hmove
    have hactive := hd.active
    have hguards := h.numActiveTasks
    rw [Global.shared_move]
    omega
  learnt := Global.forall_pc_move (hd.learnt_self hs hr hval h)
    fun w' _ => (hd.learnt w').step hs h
  done := by
    intro hdone
    by_cases hold : s.shared.doneMarker = true
    · obtain ⟨num, hnum, hfinal⟩ := hd.done hold
      exact ⟨num, le_trans h.stopIdx_le hnum, hfinal.step hs h⟩
    · -- the marker is stored by a worker that has learnt that the block is over
      have hlearnt := hd.learnt w
      have hstep := h
      generalize hpc : s.pc w = p at h hlearnt
      cases h with
      | doneStore => exact ⟨_, hlearnt.1, hlearnt.2.step hs hstep⟩
      | _ => exact absurd hdone hold

omit [DecidableEq K] in
lemma initial (cfg : Setup T K V O E) (m : ℕ) : Detection cfg (LeapState.initial cfg m) where
  active := by simp [tally, LeapState.initial, Shared.initial, Pc.guarded]
  learnt := fun _ => trivial
  done := fun h => by cases h

end Detection

end StablecoinSystem
