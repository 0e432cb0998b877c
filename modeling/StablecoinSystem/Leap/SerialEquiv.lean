import StablecoinSystem.Leap.Detection
import StablecoinSystem.Leap.Validation

/-!
Serial equivalence of the LEAP executor.

When every worker has received `Done`, the transactions below the stop index
are executed and their recorded reads are valid (`Sound.final_of_allDone`), so
the recorded statuses are those of the in-order run
(`SettledBelow.serialRun_eq`).
-/

namespace StablecoinSystem

variable {T K V O E : Type}

/-! ### All invariants together -/

/-- The invariants of the executor. Termination detection is void once a
worker has panicked. -/
structure Sound [DecidableEq K] {m : ℕ} (cfg : Setup T K V O E) (s : LeapState m K V O E) :
    Prop where
  waiting : Waiting cfg s
  versions : ∃ hist, Versions cfg hist s
  runnable : Runnable cfg s
  validated : Validated s
  detection : s.Calm → Detection cfg s

variable [DecidableEq K] {cfg : Setup T K V O E} {m : ℕ} {s : LeapState m K V O E} {w : Fin m}
  {mv : Move K V O E} {p' : Pc K V O E}

namespace Sound

lemma initial (cfg : Setup T K V O E) (m : ℕ) : Sound cfg (LeapState.initial cfg m) where
  waiting := .initial cfg m
  versions := ⟨_, .initial cfg m⟩
  runnable := fun _ _ _ _ => Or.inl (Nat.zero_le _)
  validated := fun _ _ _ hstatus => by cases hstatus
  detection := fun _ => .initial cfg m

lemma step (hs : Sound cfg s) (hcalm : (s.worker w).panicked = false)
    (h : Step cfg s.shared (s.pc w) mv p') :
    Sound cfg (s.move w (mv.perform s.shared) p') := by
  obtain ⟨hist, hv⟩ := hs.versions
  refine ⟨hs.waiting.step h, hv.step hs.waiting h, hs.runnable.step h,
    hs.validated.step hs.waiting hv h, fun hcalm' => ?_⟩
  exact (hs.detection (hcalm'.of_move hcalm)).step hs.waiting hs.runnable hs.validated h

lemma panic (hs : Sound cfg s) (w : Fin m) :
    Sound cfg (s.panic w (Move.dropGuard.perform s.shared)) where
  waiting := hs.waiting.panic w
  versions := by
    obtain ⟨hist, hv⟩ := hs.versions
    exact ⟨hist, hv.panic w⟩
  runnable := by
    intro t ht i hstatus
    simp only [Global.pc_panic]
    exact hs.runnable t ht i hstatus
  validated := by
    intro t i reads hstatus hreads r hr
    simp only [Global.pc_panic]
    exact hs.validated t i reads hstatus hreads r hr
  detection := fun hcalm => absurd hcalm (s.not_calm_panic w _)

end Sound

theorem sound_leapRun (cfg : Setup T K V O E) (acts : List (Fin m × ℕ)) :
    Sound cfg (leapRun cfg acts) :=
  leapRun_induction (Sound.initial cfg m) (fun _ _ _ _ hs hcalm h => hs.step hcalm h)
    (fun _ w hs _ => hs.panic w) acts

/-! ### The state in which the workers are done -/

omit [DecidableEq K] in
lemma calm_of_allDone (hdone : s.AllDone) : s.Calm := fun w => (hdone w).2

omit [DecidableEq K] in
lemma pc_of_allDone (hdone : s.AllDone) (w : Fin m) : s.pc w = .finished := by
  have hfinished := (hdone w).1
  change (s.pc w).isFinished = true at hfinished
  generalize s.pc w = p at hfinished
  cases p <;> first | rfl | cases hfinished

/-- When all workers are done, the block is over up to the stop index. -/
lemma Sound.final_of_allDone (hs : Sound cfg s) (hm : 0 < m) (hdone : s.AllDone) :
    ∃ num, s.shared.stopIdx ≤ num ∧ Final cfg num s := by
  have hd := hs.detection (calm_of_allDone hdone)
  have hlearnt := hd.learnt ⟨0, hm⟩
  rw [pc_of_allDone hdone] at hlearnt
  exact hd.done hlearnt

/-- Every transaction below the stop index is settled, with valid reads. -/
lemma Sound.settled_of_allDone (hs : Sound cfg s) (hm : 0 < m) (hdone : s.AllDone)
    {hist : Values K V} (hv : Versions cfg hist s) {t : ℕ} (ht : t < s.shared.stopIdx)
    (htn : t < cfg.numTxns) : ∃ i reads status, Settled cfg hist s.shared t i reads status ∧
      ∀ r ∈ reads, r.isValid s.shared.data t = true := by
  obtain ⟨num, hnum, hfinal⟩ := hs.final_of_allDone hm hdone
  obtain ⟨i, hi⟩ := hfinal.executed t (lt_of_lt_of_le ht hnum) htn
  have hrest := hv.rest t fun w hedit => by
    rw [pc_of_allDone hdone] at hedit
    cases hedit
  rw [AtRest, hi] at hrest
  obtain ⟨reads, status, hset⟩ := hrest
  exact ⟨i, reads, status, hset, hfinal.valid t (lt_of_lt_of_le ht hnum) htn reads hset.inputs⟩

/-! ### Settled transactions -/

variable {hist : History K V} {sh : Shared K V O E} {statuses : List (ExecutionStatus O E)}

/-- The statuses recorded for the first transactions: each has left the cells
of its writes, and each recorded read is valid. -/
structure SettledBelow (cfg : Setup T K V O E) (hist : History K V) (sh : Shared K V O E)
    (statuses : List (ExecutionStatus O E)) : Prop where
  settled : ∀ t status, statuses[t]? = some status →
    ∃ i reads, Settled cfg hist.values sh t i reads status ∧ ∀ r ∈ reads, r.isValid sh.data t = true
  cells : ∀ k t c, sh.data.cell k t = some c → hist k t c.incarnation = some c.data

omit [DecidableEq K] in
lemma nodup_writesOf (hnodup : ∀ o, ((cfg.task.getWrites o).map Prod.fst).Nodup)
    (status : ExecutionStatus O E) : ((cfg.task.writesOf status).map Prod.fst).Nodup := by
  cases status with
  | success o => exact hnodup o
  | skipRest o => exact hnodup o
  | abort err => exact List.nodup_nil

/-- The cells of a settled transaction are its writes. -/
lemma Settled.cellsOf {t i : ℕ} {reads : List (ReadDescriptor K)} {status : ExecutionStatus O E}
    (h : Settled cfg hist.values sh t i reads status)
    (hnodup : ((cfg.task.writesOf status).map Prod.fst).Nodup) :
    CellsOf sh.data t i (cfg.task.writesOf status) := by
  intro k
  by_cases hk : k ∈ (cfg.task.writesOf status).map Prod.fst
  · obtain ⟨⟨k, v⟩, hkv, rfl⟩ := List.mem_map.mp hk
    rw [Store.applyWrites_of_mem hnodup hkv, Option.map_some]
    exact h.written.done k v hkv
  · rw [Store.applyWrites_of_notMem hk, Store.empty_apply, Option.map_none]
    by_contra hsome
    obtain ⟨c, hc⟩ := Option.ne_none_iff_exists'.mp hsome
    rcases h.written.only k c hc with hmem | hmem
    · exact hk hmem
    · cases hmem

namespace SettledBelow

lemma validates (h : SettledBelow cfg hist sh statuses)
    (hnodup : ∀ o, ((cfg.task.getWrites o).map Prod.fst).Nodup) :
    Validates cfg hist sh.data statuses where
  values := h.cells
  cells := fun t status ht => by
    obtain ⟨i, reads, hset, -⟩ := h.settled t status ht
    exact ⟨i, hset.cellsOf (nodup_writesOf hnodup status)⟩
  reads := fun t status ht => by
    obtain ⟨i, reads, hset, hvalid⟩ := h.settled t status ht
    exact ⟨reads, hset.traced, hvalid⟩

/-- **Statuses that are settled with valid reads are those of the in-order
run.** -/
theorem serialRun_eq (h : SettledBelow cfg hist sh statuses)
    (hnodup : ∀ o, ((cfg.task.getWrites o).map Prod.fst).Nodup)
    (hlen : statuses.length ≤ cfg.numTxns) :
    cfg.task.serialRun Store.empty (cfg.block.take statuses.length) = some statuses :=
  (h.validates hnodup).serialRun_eq hlen

end SettledBelow

/-- When all workers are done, the transactions below the stop index have
settled, with valid reads. -/
lemma Sound.exists_settledBelow (hs : Sound cfg s) (hm : 0 < m) (hdone : s.AllDone)
    (hle : s.shared.stopIdx ≤ cfg.numTxns) : ∃ hist statuses,
      statuses.length = s.shared.stopIdx ∧ SettledBelow cfg hist s.shared statuses := by
  obtain ⟨values, hv⟩ := hs.versions
  have hsingle : values.Single := hv.single fun w t i => by
    rw [pc_of_allDone hdone]
    exact nofun
  obtain ⟨hist, rfl⟩ := hsingle.exists_history
  have hall : ∀ t : Fin s.shared.stopIdx, ∃ status i reads,
      Settled cfg hist.values s.shared t i reads status ∧
        ∀ r ∈ reads, r.isValid s.shared.data t = true := by
    intro t
    obtain ⟨i, reads, status, hset⟩ :=
      hs.settled_of_allDone hm hdone hv t.isLt (lt_of_lt_of_le t.isLt hle)
    exact ⟨status, i, reads, hset⟩
  choose status hstatus using hall
  refine ⟨hist, List.ofFn status, List.length_ofFn, ?_, hv.cells⟩
  intro t st ht
  obtain ⟨hlt, rfl⟩ := List.getElem?_eq_some_iff.mp ht
  rw [List.getElem_ofFn]
  exact hstatus ⟨t, by rwa [List.length_ofFn] at hlt⟩

end StablecoinSystem
