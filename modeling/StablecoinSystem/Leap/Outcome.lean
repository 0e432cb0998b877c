import StablecoinSystem.Leap.SerialEquiv

/-!
The result of `execute_transactions_parallel`.

The stop index starts at the end of the block and only decreases. `Stopped`
says that whatever does not succeed has lowered it; `StopsInOrder` says that a
worker lowers it only for a transaction that is not below the first one that
does not succeed in order. In a run all of whose states meet the latter, the
stop index ends where the in-order run ends (`Stopped.stopIdx_eq`), and the
results collected are those of the in-order run (`Sound.results_eq`).

* `parallel_eq_serial`: transactions that always succeed never lower the stop
  index, so the block has the outputs of the serial run, whatever the
  interleaving;
* `early_stop_of_stopsInOrder`: a block that is stopped early has the result of
  the in-order run if no worker stops it too early;
* `early_stop_of_aborted_incarnation`: an incarnation that is aborted later may
  do so.
-/

namespace StablecoinSystem

variable {T K V O E : Type} [DecidableEq K] {cfg : Setup T K V O E} {m : ℕ}
  {s : LeapState m K V O E} {w : Fin m} {mv : Move K V O E} {p' : Pc K V O E}

/-! ### The stop index -/

/-- How many transactions the in-order run executes: up to the first one that
does not succeed, all of them if there is none. -/
def inOrderStop (cfg : Setup T K V O E) : ℕ :=
  min cfg.numTxns (cfg.task.leadingSuccesses Store.empty cfg.block + 1)

/-- No worker is about to call `set_stop_idx` with an index below that of the
in-order run. -/
def StopsInOrder (cfg : Setup T K V O E) (s : LeapState m K V O E) : Prop :=
  ∀ w t i reads status prev outside, s.pc w = .applyWrites t i reads status [] prev outside →
    (∀ o, status ≠ .success o) → inOrderStop cfg ≤ t + 1

/-- A worker past `set_stop_idx` has lowered the stop index. -/
def HasStopped (sh : Shared K V O E) : Pc K V O E → Prop
  | .deletes t _ _ status _ _ | .recordInput t _ _ status _ | .recordOutput t _ status _ =>
      (∀ o, status ≠ .success o) → sh.stopIdx ≤ t + 1
  | _ => True

/-- Whatever does not succeed has lowered the stop index. -/
structure Stopped (cfg : Setup T K V O E) (s : LeapState m K V O E) : Prop where
  le_numTxns : s.shared.stopIdx ≤ cfg.numTxns
  workers : ∀ w, HasStopped s.shared (s.pc w)
  outputs : ∀ t status, s.shared.outputs t = some (recorded status) →
    (∀ o, status ≠ .success o) → s.shared.stopIdx ≤ t + 1

omit [DecidableEq K] in
lemma HasStopped.mono {sh sh' : Shared K V O E} {p : Pc K V O E} (h : HasStopped sh p)
    (hle : sh'.stopIdx ≤ sh.stopIdx) : HasStopped sh' p := by
  cases p <;> first | trivial | exact fun hstatus => le_trans hle (h hstatus)

omit [DecidableEq K] in
lemma hasStopped_resume (sh : Shared K V O E) (k : Resume) : HasStopped sh k.pc :=
  k.pc_induction (P := HasStopped sh) trivial trivial trivial

omit [DecidableEq K] in
lemma recorded_injective : Function.Injective (recorded : ExecutionStatus O E → _) := by
  intro a b h
  cases a <;> cases b <;> cases h <;> rfl

namespace Stopped

lemma step (hs : Stopped cfg s) (h : Step cfg s.shared (s.pc w) mv p') :
    Stopped cfg (s.move w (mv.perform s.shared) p') where
  le_numTxns := le_trans h.stopIdx_le hs.le_numTxns
  workers := by
    refine Global.forall_pc_move (P := fun _ p => HasStopped (mv.perform s.shared) p) ?_
      fun w' _ => (hs.workers w').mono h.stopIdx_le
    have hself := hs.workers w
    generalize s.pc w = p at h hself
    cases h with
    | applied => exact fun hstatus => absurd rfl (hstatus _)
    | appliedStop hstatus => exact fun _ => min_le_right _ _
    | schedule | doneTasksNo | doneAgainNo | doneStore | dropGuard hactive =>
        exact hasStopped_resume _ _
    | _ => trivial
  outputs := by
    intro t status houtput hstatus
    by_cases hold : s.shared.outputs t = some (recorded status)
    · exact le_trans h.stopIdx_le (hs.outputs t status hold hstatus)
    · have hself := hs.workers w
      change (mv.perform s.shared).outputs t = _ at houtput
      rw [Global.shared_move]
      generalize s.pc w = p at h hself
      cases h with
      | @recordOutput idx inc status' outside =>
          have hidx : t = idx := by
            by_contra hne
            exact hold ((Function.update_of_ne hne _ _).symm.trans houtput)
          subst hidx
          have heq := (Function.update_self ..).symm.trans houtput
          rw [recorded_injective (Option.some.inj heq)] at hself
          exact hself hstatus
      | _ => exact absurd houtput hold

omit [DecidableEq K] in
lemma panic (hs : Stopped cfg s) (w : Fin m) :
    Stopped cfg (s.panic w (Move.dropGuard.perform s.shared)) where
  le_numTxns := hs.le_numTxns
  workers := by
    intro w'
    rw [Global.pc_panic]
    exact (hs.workers w').mono (le_refl _)
  outputs := hs.outputs

omit [DecidableEq K] in
lemma initial (cfg : Setup T K V O E) (m : ℕ) : Stopped cfg (LeapState.initial cfg m) where
  le_numTxns := le_refl _
  workers := fun _ => trivial
  outputs := fun _ _ h => by cases h

end Stopped

/-- If no worker stops the block before the in-order run stops, the stop index
does not pass that of the in-order run. -/
lemma inOrderStop_le_stopIdx (acts : List (Fin m × ℕ))
    (hstops : ∀ acts', acts' <+: acts → StopsInOrder cfg (leapRun (m := m) cfg acts')) :
    inOrderStop cfg ≤ (leapRun (m := m) cfg acts).shared.stopIdx := by
  refine leapRun_induction_of (I := fun s => inOrderStop cfg ≤ s.shared.stopIdx)
    (min_le_left _ _) ?_ (fun s w hs _ => hs) acts hstops
  intro s w mv p' hle hCs _ h
  rw [Global.shared_move]
  generalize hpc : s.pc w = p at h
  cases h with
  | appliedStop hstatus => exact le_min hle (hCs w _ _ _ _ _ _ hpc hstatus)
  | _ => exact hle

theorem stopped_leapRun (acts : List (Fin m × ℕ)) : Stopped cfg (leapRun cfg acts) :=
  leapRun_induction (.initial cfg m) (fun _ _ _ _ hs _ h => hs.step h) (fun _ w hs _ => hs.panic w)
    acts

/-- The statuses settled below the stop index reach as far as the in-order
run. -/
lemma Stopped.stopIdx_eq (hs : Stopped cfg s) (hlow : inOrderStop cfg ≤ s.shared.stopIdx)
    {hist : History K V} {statuses : List (ExecutionStatus O E)}
    (hlen : statuses.length = s.shared.stopIdx) (hset : SettledBelow cfg hist s.shared statuses)
    (hrun : cfg.task.serialRun Store.empty (cfg.block.take statuses.length) = some statuses) :
    s.shared.stopIdx = inOrderStop cfg := by
  refine le_antisymm (le_min hs.le_numTxns ?_) hlow
  by_contra hgt
  obtain ⟨status, hget, hne⟩ :=
    cfg.task.ne_success_of_leadingSuccesses _ _ statuses hrun (by omega)
  obtain ⟨i, reads, hsettled, -⟩ := hset.settled _ status hget
  exact hgt (hs.outputs _ status hsettled.outputs hne)

/-! ### Collecting the results -/

/-- The statuses of the in-order run up to its stop are collected to its
result. -/
lemma collectResults_inOrder (task : ExecutorTask T K V O E) (st : Store K V) (block : List T)
    (statuses : List (ExecutionStatus O E)) (idx : ℕ) {stopAt : ℕ}
    (hidx : idx + statuses.length = stopAt)
    (hrun : task.serialRun st (block.take statuses.length) = some statuses)
    (hlen : statuses.length = min block.length (task.leadingSuccesses st block + 1)) :
    (∃ outputs, collectResults stopAt idx (statuses.map fun status => some (recorded status)) =
        .ok outputs ∧ outputs.length = statuses.length ∧ task.inOrder st block =
          some (.ok (outputs ++ List.replicate (block.length - outputs.length) task.skipOutput))) ∨
      ∃ err, collectResults stopAt idx (statuses.map fun status => some (recorded status)) =
        .error (.userError err) ∧ task.inOrder st block = some (.error err) := by
  induction block generalizing st statuses idx with
  | nil =>
      rw [List.length_nil, Nat.zero_min] at hlen
      rw [List.length_eq_zero_iff.mp hlen]
      exact Or.inl ⟨[], rfl, rfl, rfl⟩
  | cons txn block ih =>
      cases statuses with
      | nil =>
          rw [List.length_nil, List.length_cons] at hlen
          omega
      | cons status statuses =>
          rw [List.length_cons, List.take_succ_cons] at hrun
          obtain ⟨heval, hrest⟩ := ExecutorTask.serialRun_cons.mp hrun
          simp only [ExecutorTask.leadingSuccesses, heval, List.length_cons] at hlen
          simp only [ExecutorTask.inOrder, heval, List.map_cons, List.length_cons]
          cases status with
          | success o =>
              simp only at hlen
              rcases ih (st.applyWrites (task.getWrites o)) statuses (idx + 1)
                (by rw [List.length_cons] at hidx; omega) hrest (by omega) with
                ⟨outputs, hcollect, hlength, horder⟩ | ⟨err, hcollect, horder⟩
              · refine Or.inl ⟨o :: outputs, ?_, by rw [List.length_cons, hlength], ?_⟩
                · exact congrArg (Except.map (o :: ·)) hcollect
                · simp [horder, Except.map]
              · refine Or.inr ⟨err, ?_, ?_⟩
                · exact congrArg (Except.map (o :: ·)) hcollect
                · simp [horder, Except.map]
          | skipRest o =>
              simp only at hlen
              have hnil : statuses = [] := List.length_eq_zero_iff.mp (by omega)
              subst hnil
              refine Or.inl ⟨[o], ?_, rfl, ?_⟩
              · have hlast : idx = stopAt - 1 := by
                  rw [List.length_cons, List.length_nil] at hidx
                  omega
                simp [collectResults, recorded, hlast, Except.map]
              · simp
          | abort err => exact Or.inr ⟨err, by simp [collectResults, recorded], rfl⟩

omit [DecidableEq K] in
/-- What `take_output` moves into the outcome array below the stop index. -/
lemma takeOutputs_eq {sh : Shared K V O E} {statuses : List (ExecutionStatus O E)}
    (hlen : statuses.length = sh.stopIdx) (hle : sh.stopIdx ≤ cfg.numTxns)
    (houtputs : ∀ t status, statuses[t]? = some status → sh.outputs t = some (recorded status)) :
    ∃ results, takeOutputs cfg sh = some results ∧ results.length = cfg.numTxns ∧
      results.take sh.stopIdx = statuses.map fun status => some (recorded status) := by
  have hsome : ∀ t (ht : t < sh.stopIdx), sh.outputs t = some (recorded statuses[t]) :=
    fun t ht => houtputs t _ (List.getElem?_eq_getElem (hlen ▸ ht))
  refine ⟨_, if_pos fun t ht => by rw [hsome t ht]; rfl, by simp, ?_⟩
  refine List.ext_getElem (by simp [hlen, hle]) fun t ht ht' => ?_
  rw [List.length_map, hlen] at ht'
  simp [ht', hsome t ht']

/-- **When all workers are done and the stop index has not passed that of the
in-order run, the results collected are those of the in-order run.** -/
theorem Sound.results_eq (hs : Sound cfg s) (hstopped : Stopped cfg s)
    (hlow : inOrderStop cfg ≤ s.shared.stopIdx) (hm : 0 < m) (hdone : s.AllDone)
    (hnodup : ∀ o, ((cfg.task.getWrites o).map Prod.fst).Nodup) :
    ∃ results r, takeOutputs cfg s.shared = some results ∧
      cfg.task.inOrder Store.empty cfg.block = some r ∧
        getAllResults cfg.task s.shared.stopIdx results = some (r.mapError .userError) := by
  obtain ⟨hist, statuses, hlen, hset⟩ := hs.exists_settledBelow hm hdone hstopped.le_numTxns
  have hrun := hset.serialRun_eq hnodup (hlen ▸ hstopped.le_numTxns)
  have hstop := hstopped.stopIdx_eq hlow hlen hset hrun
  obtain ⟨results, htake, hlength, hresults⟩ := takeOutputs_eq hlen hstopped.le_numTxns
    fun t status hget => by
      obtain ⟨i, reads, hsettled, -⟩ := hset.settled t status hget
      exact hsettled.outputs
  rcases collectResults_inOrder cfg.task Store.empty cfg.block statuses 0
      ((Nat.zero_add _).trans hlen) hrun (hlen.trans hstop) with
    ⟨outputs, hcollect, houtputs, horder⟩ | ⟨err, hcollect, horder⟩
  · refine ⟨results, _, htake, horder, ?_⟩
    have hfull : outputs.take results.length = outputs :=
      List.take_of_length_le (by rw [houtputs, hlen, hlength]; exact hstopped.le_numTxns)
    rw [getAllResults, hresults, hcollect]
    simp only [houtputs, hlen, if_true, hfull]
    rw [hlength]
    rfl
  · refine ⟨results, _, htake, horder, ?_⟩
    rw [getAllResults, hresults, hcollect]
    rfl

lemma executeTransactionsParallel_of_allDone {acts : List (Fin m × ℕ)} (hne : cfg.block ≠ [])
    (hdone : (leapRun cfg acts).AllDone)
    {results : List (Option (ExecutionStatus O (Error E)))}
    (htake : takeOutputs cfg (leapRun cfg acts).shared = some results) :
    executeTransactionsParallel cfg m acts =
      getAllResults cfg.task (leapRun cfg acts).shared.stopIdx results := by
  simp only [executeTransactionsParallel, if_neg hne, if_pos hdone, htake]

/-! ### Transactions that always succeed -/

omit [DecidableEq K] in
lemma Trace.succeeds {hist : Values K V} {b rest : Body K V (ExecutionStatus O E)}
    {reads : List (ReadDescriptor K)} (h : Trace hist b reads rest) (hb : b.Succeeds) :
    rest.Succeeds := by
  induction h with
  | start => exact hb
  | version _ _ ih => exact ih (.ok _)
  | storage _ ih => exact ih (.ok none)

/-- No worker calls `set_stop_idx` for transactions that always succeed. -/
lemma Sound.stopsInOrder (hs : Sound cfg s)
    (hsucc : ∀ txn, (cfg.task.executeTransaction txn).Succeeds) : StopsInOrder cfg s := by
  intro w t i reads status prev outside hpc hstatus
  obtain ⟨hist, hv⟩ := hs.versions
  have hholds := hv.holds w
  rw [hpc] at hholds
  obtain ⟨txn, -, htrace⟩ := hholds.1
  obtain ⟨o, rfl⟩ := (htrace.succeeds (hsucc txn)).eq_success
  exact absurd rfl (hstatus o)

/-- **Serial equivalence.** For transactions that always succeed and never
write a key twice, every interleaving of the workers in which all of them
receive `Done` returns the outputs of the serial run. There is at least one
worker: with none, `execute_transactions_parallel` divides by zero. -/
theorem parallel_eq_serial (cfg : Setup T K V O E)
    (hsucc : ∀ txn, (cfg.task.executeTransaction txn).Succeeds)
    (hnodup : ∀ o, ((cfg.task.getWrites o).map Prod.fst).Nodup) (hm : 0 < m)
    (acts : List (Fin m × ℕ)) (hdone : (leapRun cfg acts).AllDone) :
    ∃ outputs : List O, cfg.task.serialRun Store.empty cfg.block = some (outputs.map .success) ∧
      executeTransactionsParallel cfg m acts = some (.ok outputs) := by
  obtain ⟨outputs, hrun, horder⟩ :=
    cfg.task.exists_outputs_of_succeeds hsucc Store.empty cfg.block
  refine ⟨outputs, hrun, ?_⟩
  by_cases hblock : cfg.block = []
  · rw [hblock] at horder
    cases horder
    exact if_pos hblock
  · have hlow := inOrderStop_le_stopIdx acts fun acts' _ =>
      (sound_leapRun cfg acts').stopsInOrder hsucc
    obtain ⟨results, r, htake, hr, hresults⟩ :=
      (sound_leapRun cfg acts).results_eq (stopped_leapRun acts) hlow hm hdone hnodup
    rw [executeTransactionsParallel_of_allDone hblock hdone htake, hresults]
    rw [horder] at hr
    cases hr
    rfl

/-- Two workers, the second of which executes its transaction too early and again after
an abort. -/
theorem parallel_eq_serial_counterBlock :
    (leapRun counterBlock (race 55)).shared.abortCount = 1 ∧
      (leapRun counterBlock (race 55)).AllDone ∧
      ∃ outputs : List ℕ,
        counterBlock.task.serialRun Store.empty counterBlock.block =
          some (outputs.map .success) ∧
        executeTransactionsParallel counterBlock 2 (race 55) = some (.ok outputs) := by
  have hdone : (leapRun counterBlock (race 55)).shared.abortCount = 1 ∧
      (leapRun counterBlock (race 55)).AllDone := by
    decide +kernel
  refine ⟨hdone.1, hdone.2,
    parallel_eq_serial counterBlock ?_ (fun o => ?_) (by decide) _ hdone.2⟩
  · rintro - ((_ | _) | _) <;> exact True.intro
  · exact List.nodup_singleton ()

/-! ### Transactions that stop the block -/

/-- **Early stop.** In a run in which no worker calls `set_stop_idx` with an
index below that of the in-order run, the result is that of the in-order run:
the outputs up to the first `SkipRest` followed by `skip_output`, the error of
the first `Abort`, or all outputs. -/
theorem early_stop_of_stopsInOrder (cfg : Setup T K V O E)
    (hnodup : ∀ o, ((cfg.task.getWrites o).map Prod.fst).Nodup) (hm : 0 < m)
    (acts : List (Fin m × ℕ))
    (hstops : ∀ acts', acts' <+: acts → StopsInOrder cfg (leapRun (m := m) cfg acts'))
    (hdone : (leapRun cfg acts).AllDone) :
    ∃ r, cfg.task.inOrder Store.empty cfg.block = some r ∧
      executeTransactionsParallel cfg m acts = some (r.mapError .userError) := by
  by_cases hblock : cfg.block = []
  · refine ⟨.ok [], by rw [hblock]; rfl, if_pos hblock⟩
  · obtain ⟨results, r, htake, hr, hresults⟩ := (sound_leapRun cfg acts).results_eq
      (stopped_leapRun acts) (inOrderStop_le_stopIdx acts hstops) hm hdone hnodup
    exact ⟨r, hr, (executeTransactionsParallel_of_allDone hblock hdone htake).trans hresults⟩

/-- Transaction 0 sets a flag, transaction 1 returns `SkipRest` unless it finds
the flag set, every other transaction succeeds. -/
def flagTask : ExecutorTask ℕ Unit ℕ ℕ Unit where
  executeTransaction
    | 0 => .ret (.success 7)
    | 1 => .read () fun r =>
        match r with
        | .ok (some v) => .ret (.success (v + 1))
        | _ => .ret (.skipRest 1)
    | _ => .ret (.success 9)
  getWrites o := if o = 7 then [((), o)] else []
  skipOutput := 0

lemma nodup_flagTask (o : ℕ) : ((flagTask.getWrites o).map Prod.fst).Nodup := by
  change ((if o = 7 then [((), o)] else []).map Prod.fst).Nodup
  split <;> simp

/-- The block of the given transactions of `flagTask`. -/
def flagBlock (block : List ℕ) : Setup ℕ Unit ℕ ℕ Unit where
  task := flagTask
  block := block
  backpressureWindow := 0
  segmentBounds := []
  txnToSegment := []

theorem early_stop_flagBlock :
    (leapRun (m := 1) (flagBlock [1, 0]) (List.replicate 80 (0, 0))).AllDone ∧
      ∃ r, flagTask.inOrder Store.empty [1, 0] = some r ∧
        executeTransactionsParallel (flagBlock [1, 0]) 1 (List.replicate 80 (0, 0)) =
          some (r.mapError .userError) := by
  have hdone : (leapRun (m := 1) (flagBlock [1, 0]) (List.replicate 80 (0, 0))).AllDone := by
    decide +kernel
  refine ⟨hdone, early_stop_of_stopsInOrder (flagBlock [1, 0]) nodup_flagTask (by decide) _
    (fun acts' _ => ?_) hdone⟩
  -- the in-order run stops at transaction 0, so no stop can be too early
  intro w t i reads status prev outside _ _
  exact le_trans (show inOrderStop (flagBlock [1, 0]) ≤ 1 by decide) (Nat.le_add_left 1 t)

/-- Worker 0 takes transaction 0; worker 1 runs transaction 1, which does not
find the flag yet and stops the block; the workers then finish one after the
other. -/
def hastyStop : List (Fin 2 × ℕ) :=
  List.replicate 8 (first, 0) ++ List.replicate 32 (second, 0) ++ List.replicate 80 (first, 0) ++
    List.replicate 10 (second, 0)

/-- The stop index set by an aborted incarnation of transaction 1 stays:
transaction 2 is skipped, although transaction 1 succeeds in the end. -/
theorem early_stop_of_aborted_incarnation :
    executeTransactionsParallel (flagBlock [0, 1, 2]) 2 hastyStop = some (.ok [7, 8, 0]) ∧
      flagTask.inOrder Store.empty [0, 1, 2] = some (.ok [7, 8, 9]) := by
  decide +kernel

end StablecoinSystem
