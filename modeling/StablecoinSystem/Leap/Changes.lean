import StablecoinSystem.Leap.Pending

/-!
Executions, aborts and changes.

The events of a run are the calls of `finish_execution`, the successful calls of
`try_abort` and the changes that can invalidate what another transaction has
read: a write outside the previous write set, or an estimate put in place of a
write.

* `Finished`: a transaction is executed at most once more than it is aborted;
* `Budget`: with at most `M` writes in an output, an incarnation makes at most
  `M` changes of either kind, so the changes are bounded by the aborts of the
  transaction itself.
-/

namespace StablecoinSystem

variable {T K V O E : Type}

/-- What is counted: calls of `finish_execution`, successful calls of
`try_abort`, and changes that can invalidate reads. -/
inductive Event where
  | finish (t : ℕ)
  | abort (t : ℕ)
  | disturb (t : ℕ)
  deriving DecidableEq, Repr

variable [DecidableEq K]

/-- The event of a step. -/
def Pc.event (p p' : Pc K V O E) : Option Event :=
  match p, p' with
  | .setExecuted idx _ _, _ => some (.finish idx)
  | .tryAbort idx _, .writeSet _ _ => some (.abort idx)
  | p, p' => (p.disturbs p').map .disturb

/-- The events of a run. -/
def leapEvents (cfg : Setup T K V O E) {m : ℕ} (acts : List (Fin m × ℕ)) : List Event :=
  (leap cfg).events Pc.event acts (LeapState.initial cfg m)

/-- The invariant rule for the workers and the events of their run. -/
theorem leapEvents_induction {cfg : Setup T K V O E} {m : ℕ}
    {I : List Event → LeapState m K V O E → Prop} (hinit : I [] (LeapState.initial cfg m))
    (hmove : ∀ (log : List Event) (s : LeapState m K V O E) (w : Fin m) (mv : Move K V O E)
      (p' : Pc K V O E), I log s → Step cfg s.shared (s.pc w) mv p' →
      I (log ++ ((s.pc w).event p').toList) (s.move w (mv.perform s.shared) p'))
    (hpanic : ∀ (log : List Event) (s : LeapState m K V O E) (w : Fin m), I log s →
      I log (s.panic w (Move.dropGuard.perform s.shared)))
    (acts : List (Fin m × ℕ)) : I (leapEvents cfg acts) (leapRun cfg acts) := by
  refine (leap cfg).run_induction_events Pc.event ?_ (fun log s w => hpanic log s w) acts hinit
  intro log s w c sh p hI hnext
  obtain ⟨mv, hstep, rfl⟩ := exists_step_of_next hnext
  exact hmove log s w mv p hI hstep

variable {cfg : Setup T K V O E} {sh : Shared K V O E} {p p' : Pc K V O E} {mv : Move K V O E}
  {m : ℕ} {s : LeapState m K V O E} {w : Fin m} {log : List Event} {t i : ℕ}

/-- `1` for a transaction that is `Executed`. -/
def TransactionStatus.settled : TransactionStatus → ℕ
  | .executed _ => 1
  | _ => 0

/-- Which steps count: `set_executed_status`, a successful `try_abort`, and
those that disturb. -/
lemma Step.event_cases (h : Step cfg sh p mv p') :
    (∃ t i, p.event p' = some (.finish t) ∧ mv = .setStatus t (.executed i) ∧
      sh.txnStatus t = .executing i) ∨
    (∃ t i, p.event p' = some (.abort t) ∧ p = .tryAbort t i ∧ mv = .setStatus t (.aborting i) ∧
      sh.txnStatus t = .executed i) ∨
    ((∀ t st, mv = .setStatus t st → st.settled = 0 ∧ (sh.txnStatus t).settled = 0) ∧
      p.event p' = (p.disturbs p').map .disturb) := by
  cases h with
  | setExecuted hstatus => exact Or.inl ⟨_, _, rfl, rfl, hstatus⟩
  | tryAbort hstatus => exact Or.inr (Or.inl ⟨_, _, rfl, rfl, rfl, hstatus⟩)
  | incarnate hidx hstatus | abortIncarnate hidx hstatus | resume hstatus | setAborted hstatus =>
      refine Or.inr (Or.inr ⟨?_, rfl⟩)
      rintro t st ⟨⟩
      exact ⟨rfl, by rw [hstatus]; rfl⟩
  | _ => exact Or.inr (Or.inr ⟨fun _ _ heq => (by cases heq), rfl⟩)

/-- An abort is a successful `try_abort`. -/
lemma Step.of_abort (h : Step cfg sh p mv p') (hevent : p.event p' = some (.abort t)) :
    ∃ i, p = .tryAbort t i ∧ mv = .setStatus t (.aborting i) ∧ sh.txnStatus t = .executed i := by
  rcases h.event_cases with ⟨t', i, hother, -⟩ | ⟨t', i, hother, hrest⟩ | ⟨-, hother⟩
  · rw [hevent] at hother
    cases hother
  · rw [hevent] at hother
    cases hother
    exact ⟨i, hrest⟩
  · rw [hevent] at hother
    obtain ⟨t', -, heq⟩ := Option.map_eq_some_iff.mp hother.symm
    cases heq

lemma Pc.event_of_disturbs {j : ℕ} (h : p.disturbs p' = some j) :
    p.event p' = some (.disturb j) := by
  have hevent : p.event p' = (p.disturbs p').map .disturb := by
    rw [Pc.disturbs.eq_def] at h
    split at h
    · rfl
    · rfl
    · cases h
  rw [hevent, h]
  rfl

lemma count_append_toList (log : List Event) (o : Option Event) (e : Event) :
    (log ++ o.toList).count e = log.count e + if o = some e then 1 else 0 := by
  rw [List.count_append]
  cases o with
  | none => simp
  | some e' => simp [List.count_singleton]

/-! ### Executions and aborts -/

/-- A transaction has finished as many executions as it has been aborted, and
one more if it is `Executed`. -/
def Finished (log : List Event) (s : LeapState m K V O E) : Prop :=
  ∀ t, log.count (.finish t) = log.count (.abort t) + (s.shared.txnStatus t).settled

omit [DecidableEq K] in
lemma settled_perform (h : ∀ t st, mv = .setStatus t st → st.settled = 0 ∧
    (sh.txnStatus t).settled = 0) (t : ℕ) :
    ((mv.perform sh).txnStatus t).settled = (sh.txnStatus t).settled := by
  cases mv with
  | setStatus t' st =>
      obtain ⟨hst, hold⟩ := h t' st rfl
      change (Function.update sh.txnStatus t' st t).settled = _
      by_cases htt : t = t'
      · rw [htt, Function.update_self, hst, hold]
      · rw [Function.update_of_ne htt]
  | _ => rfl

lemma Finished.step (hf : Finished log s) (h : Step cfg s.shared (s.pc w) mv p') :
    Finished (log ++ ((s.pc w).event p').toList) (s.move w (mv.perform s.shared) p') := by
  intro t
  have hold := hf t
  rw [count_append_toList, count_append_toList]
  change _ = _ + ((mv.perform s.shared).txnStatus t).settled
  rcases h.event_cases with ⟨t', i, hevent, rfl, hstatus⟩ | ⟨t', i, hevent, -, rfl, hstatus⟩ |
    ⟨hstatus, hevent⟩
  · rw [hevent]
    change _ = _ + (Function.update s.shared.txnStatus t' (.executed i) t).settled
    by_cases htt : t = t'
    · subst htt
      rw [hstatus] at hold
      simp [TransactionStatus.settled] at hold ⊢
      omega
    · rw [Function.update_of_ne htt]
      simp [Ne.symm htt, hold]
  · rw [hevent]
    change _ = _ + (Function.update s.shared.txnStatus t' (.aborting i) t).settled
    by_cases htt : t = t'
    · subst htt
      rw [hstatus] at hold
      simp [TransactionStatus.settled] at hold ⊢
      omega
    · rw [Function.update_of_ne htt]
      simp [Ne.symm htt, hold]
  · rw [settled_perform hstatus, hevent, hold]
    simp

theorem finished_leapRun (cfg : Setup T K V O E) (acts : List (Fin m × ℕ)) :
    Finished (leapEvents cfg acts) (leapRun (m := m) cfg acts) :=
  leapEvents_induction (fun _ => rfl) (fun _ _ _ _ _ hf h => hf.step h) (fun _ _ _ hf => hf) acts

/-! ### Changes -/

/-- What a transaction owes and what it is allowed, by its status. -/
def TransactionStatus.allowance (M : ℕ) : TransactionStatus → ℕ × ℕ
  | .readyToExecute _ | .executing _ => (0, 0)
  | .executed _ => (0, M)
  | .aborting _ => (M, 0)

/-- What a transaction owes and what it is allowed while a worker edits its
versions: the writes and marks that are still to come are owed. -/
def Pc.allowance (M : ℕ) : Pc K V O E → ℕ × ℕ
  | .applyWrites _ _ _ _ writes _ _ => (writes.length, M)
  | .markEstimates _ _ rest => (rest.length, 0)
  | .setAborted _ _ => (0, 0)
  | _ => (0, M)

/-- The changes of a transaction are within `2M` for each of its aborts. -/
def Within (M : ℕ) (log : List Event) (t : ℕ) (a : ℕ × ℕ) : Prop :=
  log.count (.disturb t) + a.1 ≤ 2 * M * log.count (.abort t) + a.2

/-- Every transaction keeps within its allowance. -/
structure Budget (M : ℕ) (log : List Event) (s : LeapState m K V O E) : Prop where
  rest : ∀ t, (∀ w, (s.pc w).editing ≠ some t) →
    Within M log t ((s.shared.txnStatus t).allowance M)
  busy : ∀ w t, (s.pc w).editing = some t → Within M log t ((s.pc w).allowance M)

omit [DecidableEq K] in
lemma editing_resume (k : Resume) : (k.pc : Pc K V O E).editing = none :=
  k.pc_induction (P := fun p => p.editing = none) rfl rfl rfl

lemma Pc.editing_of_disturbs (h : p.disturbs p' = some t) : p.editing = some t := by
  rw [Pc.disturbs.eq_def] at h
  split at h
  · split at h
    · cases h
    · exact h
  · exact h
  · cases h

lemma length_without_lt {k : K} {l : List K} (h : k ∈ l) : (without k l).length < l.length :=
  List.length_filter_lt_length_iff_exists.mpr ⟨k, h, by simp⟩

/-- A change is made by the worker that edits the transaction. -/
lemma Step.editing_of_event (h : Step cfg sh p mv p') (hevent : p.event p' = some (.disturb t)) :
    p.editing = some t := by
  rcases h.event_cases with ⟨t', i, hother, -⟩ | ⟨t', i, hother, -⟩ | ⟨-, hother⟩
  · rw [hevent] at hother
    cases hother
  · rw [hevent] at hother
    cases hother
  · rw [hevent] at hother
    obtain ⟨t', ht', heq⟩ := Option.map_eq_some_iff.mp hother.symm
    cases heq
    exact Pc.editing_of_disturbs ht'

/-- A step without a change or an abort of the transaction leaves its account
alone. -/
lemma Within.append {M : ℕ} {a : ℕ × ℕ} {o : Option Event} (h : Within M log t a)
    (hdisturb : o ≠ some (.disturb t)) (habort : o ≠ some (.abort t)) :
    Within M (log ++ o.toList) t a := by
  rw [Within, count_append_toList, count_append_toList, if_neg hdisturb, if_neg habort]
  exact h

/-- A step that takes something off what is owed may make a change. -/
lemma Within.pay {M : ℕ} {a b : ℕ × ℕ} {o : Option Event} (h : Within M log t a)
    (howed : b.1 < a.1) (hallowed : a.2 ≤ b.2) (habort : o ≠ some (.abort t)) :
    Within M (log ++ o.toList) t b := by
  rw [Within] at h
  rw [Within, count_append_toList, count_append_toList, if_neg habort, Nat.add_zero]
  split <;> omega

/-- The worker that edits a transaction pays for each change. -/
lemma Within.edit {M : ℕ} (hw : Within M log t (p.allowance M)) (h : Step cfg sh p mv p')
    (hold : p.editing = some t) (hnew : p'.editing = some t) :
    Within M (log ++ (p.event p').toList) t (p'.allowance M) := by
  cases h with
  | @applyWrite idx inc reads status k v writes prev outside _ hwrite
  | @writeFailed idx inc reads status k v writes prev outside _ hwrite =>
      cases hold
      have hdisturb : ∀ o : Option ℕ, o.map Event.disturb ≠ some (.abort t) := by simp
      exact hw.pay (by simp [Pc.allowance]) le_rfl (hdisturb (if k ∈ prev then none else some t))
  | @markEstimate idx inc k rest _ hk hmark =>
      cases hold
      exact hw.pay (length_without_lt hk) le_rfl nofun
  | applied | appliedStop hstatus | delete hk hdelete | deleted | recordInput | recordOutput
  | marked => exact hw.append nofun nofun
  | setExecuted hstatus => cases hnew
  | setAborted hstatus => cases hnew
  | _ => cases hold

/-- The hypothesis on the outputs: the transactions of the block return at most
`M` writes. -/
def Setup.WritesAtMost (cfg : Setup T K V O E) (M : ℕ) : Prop :=
  ∀ txn ∈ cfg.block, (cfg.task.executeTransaction txn).Returns
    fun status => (cfg.task.writesOf status).length ≤ M

namespace Budget

variable {M : ℕ} {hist : Values K V}

omit [DecidableEq K] in
/-- The account of a transaction that a worker claims and does not edit. -/
lemma of_claimed (hb : Budget M log s) (hs : Waiting cfg s) (hclaim : t ∈ (s.pc w).claims)
    (hself : (s.pc w).editing ≠ some t) :
    Within M log t ((s.shared.txnStatus t).allowance M) := by
  refine hb.rest t fun w' hedit => ?_
  by_cases hne : w' = w
  · exact hself (hne ▸ hedit)
  · exact (hs.claim_unique hclaim).2.2 w' hne (Pc.mem_claims_of_editing hedit)

/-- A worker starts to edit a transaction with the writes of its output, or with
the marks of its recorded write set. -/
lemma enter (hb : Budget M log s) (hs : Waiting cfg s) (hv : Versions cfg hist s)
    (hM : cfg.WritesAtMost M) (h : Step cfg s.shared (s.pc w) mv p')
    (hold : (s.pc w).editing ≠ some t) (hnew : p'.editing = some t) :
    Within M (log ++ ((s.pc w).event p').toList) t (p'.allowance M) := by
  have hclaimed {t : ℕ} := hb.of_claimed hs (w := w) (t := t)
  have hfits := hs.fits w
  have hholds := hv.holds w
  have hsettled {t i : ℕ} := hv.settled_of_aborting hs (w := w) (t := t) (i := i)
  generalize s.pc w = p at *
  cases h with
  | prevWrites =>
      cases hnew
      have hwithin := hclaimed (Pc.mem_claims.mpr (Or.inl ⟨_, rfl⟩)) hold
      rw [hfits.running _ _ rfl] at hwithin
      have hlen := hholds.returned hM
      refine Within.append ?_ nofun nofun
      simp only [Within, Pc.allowance, TransactionStatus.allowance] at hwithin ⊢
      omega
  | writeSet =>
      cases hnew
      have hwithin := hclaimed (Pc.mem_claims.mpr (Or.inr (Or.inl ⟨_, rfl⟩))) hold
      rw [hfits.aborting _ _ rfl] at hwithin
      obtain ⟨reads, status, hset⟩ := hsettled rfl hold
      have hlen := hset.traced.returned hM
      refine Within.append ?_ nofun nofun
      simp only [Within, Pc.allowance, TransactionStatus.allowance, hset.writeSet,
        List.length_map] at hwithin ⊢
      omega
  | schedule | doneTasksNo | doneAgainNo | doneStore | dropGuard hactive =>
      rw [editing_resume] at hnew
      cases hnew
  | _ => first | exact absurd hnew hold | cases hnew

/-- A worker that stops editing a transaction leaves it within the allowance of
its new status. -/
lemma exit (hw : Within M log t (p.allowance M)) (h : Step cfg sh p mv p')
    (hold : p.editing = some t) (hnew : p'.editing ≠ some t) :
    Within M (log ++ (p.event p').toList) t (((mv.perform sh).txnStatus t).allowance M) := by
  have hperform {st : TransactionStatus} :
      (Move.perform sh (.setStatus t st)).txnStatus t = st := Function.update_self ..
  cases h with
  | setExecuted hstatus | setAborted hstatus =>
      cases hold
      rw [hperform]
      exact hw.append nofun nofun
  | _ => first | exact absurd hold hnew | cases hold

/-- An abort pays for the marks and for the writes of the next incarnation. -/
lemma outside (hw : Within M log t ((sh.txnStatus t).allowance M)) (h : Step cfg sh p mv p')
    (hold : p.editing ≠ some t) :
    Within M (log ++ (p.event p').toList) t (((mv.perform sh).txnStatus t).allowance M) := by
  have hdisturb : p.event p' ≠ some (.disturb t) := fun hevent => hold (h.editing_of_event hevent)
  rcases h.transition t with hstatus | ⟨st, st', hst, hnew, htransition⟩
  · rw [hstatus]
    refine hw.append hdisturb fun hevent => ?_
    obtain ⟨i, -, rfl, hexec⟩ := h.of_abort hevent
    rw [hexec] at hstatus
    exact absurd ((Function.update_self ..).symm.trans hstatus) (by simp)
  · rw [hst] at hw
    rw [hnew]
    cases htransition with
    | incarnate hp ht => rcases hp with rfl | rfl <;> exact hw.append nofun nofun
    | resume => exact hw.append nofun nofun
    | @tryAbort i =>
        have hevent : Pc.event (.tryAbort t i : Pc K V O E) (.writeSet t i) = some (.abort t) := rfl
        rw [hevent, Within, count_append_toList, count_append_toList]
        simp only [Within, TransactionStatus.allowance] at hw ⊢
        simp
        rw [Nat.mul_add]
        omega
    | setExecuted | setAborted => exact absurd rfl hold

lemma step (hb : Budget M log s) (hs : Waiting cfg s) (hv : Versions cfg hist s)
    (hM : cfg.WritesAtMost M) (h : Step cfg s.shared (s.pc w) mv p') :
    Budget M (log ++ ((s.pc w).event p').toList) (s.move w (mv.perform s.shared) p') where
  rest := by
    intro t hnone
    have hself : p'.editing ≠ some t := by
      have hw := hnone w
      rwa [Global.pc_move_self] at hw
    by_cases hedit : (s.pc w).editing = some t
    · exact exit (hb.busy w t hedit) h hedit hself
    · refine outside (hb.rest t fun w' => ?_) h hedit
      by_cases hne : w' = w
      · rw [hne]
        exact hedit
      · have hw' := hnone w'
        rwa [Global.pc_move_of_ne s hne] at hw'
  busy := by
    refine Global.forall_pc_move (P := fun _ (q : Pc K V O E) => ∀ t, q.editing = some t →
      Within M (log ++ ((s.pc w).event p').toList) t (q.allowance M)) ?_ ?_
    · intro t hnew
      by_cases hedit : (s.pc w).editing = some t
      · exact (hb.busy w t hedit).edit h hedit hnew
      · exact hb.enter hs hv hM h hedit hnew
    · intro w' hne t hedit
      have hclaim := hs.claim_unique (Pc.mem_claims_of_editing hedit)
      have hother : (s.pc w).editing ≠ some t := fun hw =>
        hclaim.2.2 w hne.symm (Pc.mem_claims_of_editing hw)
      refine (hb.busy w' t hedit).append (fun hevent => hother (h.editing_of_event hevent)) ?_
      intro hevent
      obtain ⟨i, -, -, hexec⟩ := h.of_abort hevent
      rw [hexec] at hclaim
      cases hclaim.2.1

omit [DecidableEq K] in
lemma panic (hb : Budget M log s) (w : Fin m) :
    Budget M log (s.panic w (Move.dropGuard.perform s.shared)) where
  rest := by
    intro t hnone
    simp only [Global.pc_panic] at hnone
    exact hb.rest t hnone
  busy := by
    intro w' t hedit
    rw [Global.pc_panic] at hedit ⊢
    exact hb.busy w' t hedit

omit [DecidableEq K] in
/-- In every state the changes are within the aborts. -/
lemma count_disturb_le (hb : Budget M log s) (t : ℕ) :
    log.count (.disturb t) ≤ 2 * M * log.count (.abort t) + M := by
  have hstatus (st : TransactionStatus) : (st.allowance M).2 ≤ M := by
    cases st <;> simp [TransactionStatus.allowance]
  have hpc (q : Pc K V O E) : (q.allowance M).2 ≤ M := by
    cases q <;> simp [Pc.allowance]
  by_cases hedit : ∃ w, (s.pc w).editing = some t
  · obtain ⟨w, hedit⟩ := hedit
    have hwithin := hb.busy w t hedit
    have hle := hpc (s.pc w)
    rw [Within] at hwithin
    omega
  · push Not at hedit
    have hwithin := hb.rest t hedit
    have hle := hstatus (s.shared.txnStatus t)
    rw [Within] at hwithin
    omega

end Budget

theorem budget_leapRun {M : ℕ} (hM : cfg.WritesAtMost M) (acts : List (Fin m × ℕ)) :
    Budget M (leapEvents cfg acts) (leapRun (m := m) cfg acts) := by
  refine (leapEvents_induction (I := fun log s => Waiting cfg s ∧ (∃ hist, Versions cfg hist s) ∧
    Budget M log s) ⟨Waiting.initial cfg m, ⟨_, Versions.initial cfg m⟩, ?_⟩ ?_ ?_ acts).2.2
  · exact ⟨fun _ _ => Nat.zero_le _, fun _ _ hedit => by cases hedit⟩
  · rintro log s w mv p' ⟨hs, ⟨hist, hv⟩, hb⟩ h
    exact ⟨hs.step h, hv.step hs h, hb.step hs hv hM h⟩
  · rintro log s w ⟨hs, ⟨hist, hv⟩, hb⟩
    exact ⟨hs.panic w, ⟨hist, hv.panic w⟩, hb.panic w⟩

end StablecoinSystem
