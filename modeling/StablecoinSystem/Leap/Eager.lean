import StablecoinSystem.Leap.Envelope

/-!
What faults under speculation.

The workers may all load the two indices of the scheduler before any of them
fetches a transaction. Then as many transactions are being executed as there are
workers, and nothing has been written. A transaction that faults on the empty
store faults in such an interleaving, whatever the transactions before it would
have written.

* `row`, `exists_row`: the workers do the same thing one after the other;
* `exists_fetched`: every worker has fetched a transaction;
* `exists_fault_of_eval`: the fault.
-/

namespace StablecoinSystem

variable {T K V O E : Type} {cfg : Setup T K V O E} {m : ℕ}

/-! ### One worker after the other -/

/-- The first `k` workers have come to `p`, the others are still at `q`. -/
def row (sh : Shared K V O E) (k : ℕ) (p : Fin m → Pc K V O E) (q : Pc K V O E) :
    LeapState m K V O E :=
  ⟨sh, fun w => ⟨if w.val < k then p w else q, false⟩⟩

lemma row_move (sh sh' : Shared K V O E) (k : Fin m) (p : Fin m → Pc K V O E) (q : Pc K V O E) :
    (row sh k p q).move k sh' (p k) = row sh' (k + 1) p q := by
  have hworker : (Function.update (row sh k p q).worker k ⟨p k, false⟩) =
      (row sh' (k + 1) p q).worker := by
    funext w
    by_cases hw : w = k
    · simp [hw, row]
    · have hne : w.val ≠ k.val := fun h => hw (Fin.ext h)
      have hiff : w.val < k.val + 1 ↔ w.val < k.val := by omega
      simp only [Function.update_of_ne hw, row, hiff]
  rw [Global.move, hworker, row]

variable [DecidableEq K]

/-- One operation of a worker on its own. -/
lemma solo_of_plan {c : ℕ} {sh : Shared K V O E} {p p' : Pc K V O E} (mv : Move K V O E)
    (h : plan cfg c sh p = some (mv, p')) : (leap cfg).Solo (sh, p) (mv.perform sh, p') := by
  refine .single ⟨c, ?_⟩
  simp only [leap, h, Option.map_some]

/-- A state that the workers reach, and what one of them does alone from there. -/
lemma exists_leapRun_of_solo {s : LeapState m K V O E} {w : Fin m} {sh' : Shared K V O E}
    {p' : Pc K V O E} (hs : ∃ acts, leapRun cfg acts = s) (hcalm : (s.worker w).panicked = false)
    (h : (leap cfg).Solo (s.shared, s.pc w) (sh', p')) :
    ∃ acts, leapRun cfg acts = s.move w sh' p' := by
  obtain ⟨acts, rfl⟩ := hs
  obtain ⟨acts', hacts'⟩ := (leap cfg).exists_run_of_solo hcalm h
  refine ⟨acts ++ acts', ?_⟩
  rw [← hacts', leapRun, Machine.run, List.foldl_append]
  rfl

/-- If each worker can do it alone where the one before has left off, they do it
in a row. -/
lemma exists_row (sh : ℕ → Shared K V O E) {p : Fin m → Pc K V O E} {q : Pc K V O E} (k : ℕ)
    (hk : k ≤ m) (hstart : ∃ acts, leapRun cfg acts = row (sh 0) 0 p q)
    (hsolo : ∀ w : Fin m, w.val < k → (leap cfg).Solo (sh w, q) (sh (w + 1), p w)) :
    ∃ acts, leapRun cfg acts = row (sh k) k p q := by
  induction k with
  | zero => exact hstart
  | succ k ih =>
      have hrow := ih (Nat.le_of_lt hk) fun w hw => hsolo w (Nat.lt_succ_of_lt hw)
      have hpc : (row (sh k) k p q).pc ⟨k, hk⟩ = q := if_neg (Nat.lt_irrefl k)
      rw [← row_move (sh k) (sh (k + 1)) ⟨k, hk⟩ p q]
      refine exists_leapRun_of_solo hrow rfl ?_
      rw [hpc]
      exact hsolo ⟨k, hk⟩ (Nat.lt_succ_self k)

/-! ### Every worker fetches a transaction -/

/-- At the start of a block a worker decides to execute. -/
lemma solo_executeGuard (hblock : 0 < cfg.numTxns) :
    (leap cfg).Solo (Shared.initial cfg, .nextTask) (Shared.initial cfg, .executeGuard) := by
  have hexecution : plan cfg 0 (Shared.initial cfg) (.loadExecution 0) =
      some (.idle, .executeLoad) := by
    simp [plan, afterLoads, Setup.backpressured, Setup.throttled, scheduleNext, Shared.initial]
  have hstop : plan cfg 0 (Shared.initial cfg) (.executeStop 0) = some (.idle, .executeGuard) := by
    simp [plan, Shared.initial, Nat.not_le_of_lt hblock]
  calc (leap cfg).Solo (Shared.initial cfg, .nextTask) (Shared.initial cfg, .loadValidation) :=
        solo_of_plan (c := 0) .idle rfl
    (leap cfg).Solo _ (Shared.initial cfg, .loadExecution 0) :=
        solo_of_plan (c := 0) .idle rfl
    (leap cfg).Solo _ (Shared.initial cfg, .executeLoad) := solo_of_plan .idle hexecution
    (leap cfg).Solo _ (Shared.initial cfg, .executeStop 0) :=
        solo_of_plan (c := 0) .idle rfl
    (leap cfg).Solo _ (Shared.initial cfg, .executeGuard) := solo_of_plan .idle hstop

omit [DecidableEq K] in
/-- What the workers share when `k` transactions have been fetched. -/
def fetched (cfg : Setup T K V O E) (k : ℕ) : Shared K V O E :=
  { Shared.initial cfg with
    executionIdx := k
    numActiveTasks := k
    txnStatus := fun t => if t < k then .executing 0 else .readyToExecute 0 }

lemma solo_fetch {k : ℕ} (hk : k < cfg.numTxns) :
    (leap cfg).Solo (fetched cfg k, .executeGuard) (fetched cfg (k + 1), .readSet k 0) := by
  have hstatus : Function.update (fetched cfg k).txnStatus k (.executing 0) =
      (fetched cfg (k + 1)).txnStatus := by
    funext t
    by_cases ht : t = k
    · simp [ht, fetched]
    · have hiff : t < k + 1 ↔ t < k := by omega
      simp only [Function.update_of_ne ht, fetched, hiff]
  have hincarnate : plan cfg 0 { fetched cfg k with executionIdx := k + 1, numActiveTasks := k + 1 }
      (.executeIncarnate k) = some (.setStatus k (.executing 0), .readSet k 0) := by
    simp [plan, Shared.tryIncarnate, fetched, Nat.not_le_of_lt hk]
  calc (leap cfg).Solo (fetched cfg k, .executeGuard)
          ({ fetched cfg k with numActiveTasks := k + 1 }, .executeFetch) :=
        solo_of_plan (c := 0) .takeGuard rfl
    (leap cfg).Solo _ ({ fetched cfg k with executionIdx := k + 1, numActiveTasks := k + 1 },
          .executeIncarnate k) := solo_of_plan (c := 0) (.setExecutionIdx (k + 1)) rfl
    (leap cfg).Solo _ ({ fetched cfg (k + 1) with
          txnStatus := Function.update (fetched cfg k).txnStatus k (.executing 0) }, .readSet k 0) :=
        solo_of_plan _ hincarnate
    (leap cfg).Solo _ (fetched cfg (k + 1), .readSet k 0) := by
        rw [hstatus]
        exact .refl

/-- The first workers may fetch as many transactions before one is executed. -/
lemma exists_fetched {k : ℕ} (hk : k ≤ m) (hblock : k ≤ cfg.numTxns) (hpos : 0 < k) :
    ∃ acts, leapRun cfg acts =
      row (m := m) (fetched cfg k) k (fun w => .readSet w 0) .executeGuard := by
  have hlined : ∃ acts, leapRun cfg acts =
      row (m := m) (Shared.initial cfg) m (fun _ => .executeGuard) .nextTask :=
    exists_row (fun _ => Shared.initial cfg) m (Nat.le_refl m) ⟨[], rfl⟩
      fun _ _ => solo_executeGuard (Nat.lt_of_lt_of_le hpos hblock)
  refine exists_row (fetched cfg) k hk ?_ fun w hw => solo_fetch (Nat.lt_of_lt_of_le hw hblock)
  obtain ⟨acts, hacts⟩ := hlined
  refine ⟨acts, hacts.trans ?_⟩
  have hworker : (row (m := m) (Shared.initial cfg) m (fun _ => .executeGuard) .nextTask).worker =
      (row (fetched cfg 0) 0 (fun w => .readSet w 0) .executeGuard).worker := by
    funext w
    simp [row]
  exact congrArg (Global.mk (Shared.initial cfg)) hworker

/-! ### A transaction runs before anything is written -/

/-- With nothing written, a worker runs a transaction as on the empty store. -/
lemma solo_fault (cfg : Setup T K V O E) {sh : Shared K V O E} (hdata : sh.data = .new) {t i : ℕ}
    (b : Body K V (ExecutionStatus O E)) (hfault : b.eval Store.empty = none)
    (reads : List (ReadDescriptor K)) :
    ∃ reads', (leap cfg).Solo (sh, .body t i reads false b) (sh, .body t i reads' false .fault) := by
  induction b generalizing reads with
  | ret status => cases hfault
  | fault => exact ⟨reads, .refl⟩
  | read key next ih =>
      have hread : sh.data.read key t = .error none := by rw [hdata]; rfl
      have hplan : plan cfg 0 sh (.body t i reads false (.read key next)) = some (.idle,
          .body t i (reads ++ [⟨key, .storage⟩]) false (next (.ok none))) := by
        simp only [plan, planBody, hread]
      obtain ⟨reads', hreads'⟩ := ih (.ok none) hfault (reads ++ [⟨key, .storage⟩])
      exact ⟨reads', (solo_of_plan .idle hplan).trans hreads'⟩

/-- **A transaction that faults on the empty store faults** in some interleaving
of as many workers as there are transactions up to it, whatever the ones before
it do. -/
theorem exists_fault_of_eval (cfg : Setup T K V O E) {t : ℕ} {txn : T}
    (hget : cfg.block[t]? = some txn)
    (hfault : (cfg.task.executeTransaction txn).eval Store.empty = none) (ht : t < m) :
    ∃ acts, ((leapRun (m := m) cfg acts).pc ⟨t, ht⟩).faults = true := by
  have hlt : t < cfg.numTxns := (List.getElem?_eq_some_iff.mp hget).1
  have hfetched := exists_fetched ht hlt (Nat.succ_pos t)
  have hpc : (row (m := m) (fetched cfg (t + 1)) (t + 1) (fun w => .readSet w 0) .executeGuard).pc
      ⟨t, ht⟩ = .readSet t 0 := if_pos (Nat.lt_succ_self t)
  have hstart : plan cfg 0 (fetched cfg (t + 1)) (.readSet t 0) =
      some (.idle, .body t 0 [] false (cfg.task.executeTransaction txn)) := by
    simp only [plan, fetched, Shared.initial, startBody, hget]
  have hdata : (fetched cfg (t + 1)).data = .new := rfl
  obtain ⟨reads, hreads⟩ := solo_fault cfg hdata _ hfault []
  obtain ⟨acts, hacts⟩ := exists_leapRun_of_solo hfetched rfl
    (hpc ▸ (solo_of_plan .idle hstart).trans hreads)
  refine ⟨acts, ?_⟩
  rw [hacts, Global.pc_move_self]
  rfl

end StablecoinSystem
