import StablecoinSystem.Leap.Step

/-!
The waiting invariant of the scheduler.

A busy transaction (`Executing` or `Aborting`) is in exactly one place: with
the worker that runs or aborts it, in one of the lists of `txn_dependency`, or
in a list that a worker inside `finish_execution` has drained. Every place is a
claim on the transaction, and `Waiting.claimed` counts the claims.

* `Waiting.claimed_step`: a step moves claims but keeps the balance;
* `Waiting.status_eq_of_claimed`: only the holder of the claim changes the status of a
  busy transaction;
* `waiting_leapRun`: the invariant holds after every run;
* `waiting_invariant`: no transaction waits twice, whoever waits is
  `Executing`, and nobody waits for a transaction that will not wake it.
-/

namespace StablecoinSystem

open Finset

variable {T K V O E : Type}

/-! ### Claims -/

namespace Pc

/-- The version a worker runs: from `try_incarnate` to `set_executed_status`,
unless a dependency has been registered for it. -/
def running : Pc K V O E → Option (ℕ × ℕ)
  | .readSet idx inc | .precheck idx inc _ | .precheckDep idx inc _ _
  | .precheckPush idx inc _ => some (idx, inc)
  | .body idx inc _ dependency _ => if dependency then none else some (idx, inc)
  | .readDep idx inc _ _ _ _ | .readPush idx inc _ _ _ | .prevWrites idx inc _ _
  | .applyWrites idx inc _ _ _ _ _ | .writeFailed idx inc | .deletes idx inc _ _ _ _
  | .recordInput idx inc _ _ _ | .recordOutput idx inc _ _
  | .setExecuted idx inc _ => some (idx, inc)
  | _ => none

/-- The version a worker aborts: from `try_abort` to `set_aborted_status`. -/
def aborting : Pc K V O E → Option (ℕ × ℕ)
  | .writeSet idx inc | .markEstimates idx inc _ | .setAborted idx inc => some (idx, inc)
  | _ => none

/-- The transactions a worker has drained and not yet resumed. -/
def drained : Pc K V O E → List ℕ
  | .resume _ _ _ deps _ => deps
  | _ => []

/-- The list whose mutex a worker holds inside `try_add_dependency`. -/
def pushing : Pc K V O E → Option ℕ
  | .precheckPush _ _ dep | .readPush _ _ _ dep _ => some dep
  | _ => none

/-- The transactions a worker has a claim on. -/
def claims (p : Pc K V O E) : List ℕ :=
  (p.running.map Prod.fst).toList ++ (p.aborting.map Prod.fst).toList ++ p.drained

lemma mem_claims {p : Pc K V O E} {t : ℕ} :
    t ∈ p.claims ↔ (∃ i, p.running = some (t, i)) ∨ (∃ i, p.aborting = some (t, i)) ∨
      t ∈ p.drained := by
  simp [claims]

/-- A dependency is on a lower index. -/
def Ordered : Pc K V O E → Prop
  | .precheckDep idx _ dep _ | .precheckPush idx _ dep | .readDep idx _ _ dep _ _
  | .readPush idx _ _ dep _ => dep < idx
  | .resume idx _ _ deps _ => ∀ t ∈ deps, idx < t
  | _ => True

end Pc

/-- A worker that goes on in `next_task` has no part in any transaction. -/
lemma roles_resume (k : Resume) : (k.pc : Pc K V O E).running = none ∧
    (k.pc : Pc K V O E).aborting = none ∧ (k.pc : Pc K V O E).drained = [] ∧
      (k.pc : Pc K V O E).pushing = none :=
  k.pc_induction (P := fun p => p.running = none ∧ p.aborting = none ∧ p.drained = [] ∧
      p.pushing = none)
    ⟨rfl, rfl, rfl, rfl⟩ ⟨rfl, rfl, rfl, rfl⟩ ⟨rfl, rfl, rfl, rfl⟩

lemma ordered_resume (k : Resume) : (k.pc : Pc K V O E).Ordered :=
  k.pc_induction (P := Pc.Ordered) trivial trivial trivial

/-- `1` for a transaction somebody has a claim on. -/
def TransactionStatus.busy : TransactionStatus → ℕ
  | .executing _ | .aborting _ => 1
  | .readyToExecute _ | .executed _ => 0

/-- How often a transaction stands in the lists of `txn_dependency`. -/
def listed (cfg : Setup T K V O E) (sh : Shared K V O E) (t : ℕ) : ℕ :=
  ∑ d ∈ range cfg.numTxns, (sh.txnDependency d).count t

/-- The operations that move claims. -/
def Move.claiming : Move K V O E → Bool
  | .lockDependency _ | .setDependency _ _ | .setStatus _ _ => true
  | _ => false

variable [DecidableEq K] {cfg : Setup T K V O E} {sh : Shared K V O E} {p p' : Pc K V O E}
  {mv : Move K V O E}

/-- An operation that moves no claim leaves the worker's part as it was. -/
lemma Step.roles_eq (h : Step cfg sh p mv p') (hmv : mv.claiming = false) :
    p'.running = p.running ∧ p'.aborting = p.aborting ∧ p'.drained = p.drained ∧
      p'.pushing = p.pushing := by
  cases h <;> first
    | exact ⟨rfl, rfl, rfl, rfl⟩
    | exact roles_resume _
    | cases hmv

omit [DecidableEq K] in
lemma Move.txnStatus_perform (hmv : ∀ t st, mv ≠ .setStatus t st) :
    (mv.perform sh).txnStatus = sh.txnStatus := by
  cases mv <;> first | rfl | exact absurd rfl (hmv _ _)

/-- A step changes the status of a transaction only by starting it, by aborting
it, or under a claim of the worker. -/
lemma Step.txnStatus_eq_or (h : Step cfg sh p mv p') (t : ℕ) :
    (mv.perform sh).txnStatus t = sh.txnStatus t ∨
      (t < cfg.numTxns ∧ ∃ i, sh.txnStatus t = .readyToExecute i) ∨
      (∃ i, sh.txnStatus t = .executed i) ∨ t ∈ p.claims := by
  rcases h.transition t with heq | ⟨st, st', hst, -, htransition⟩
  · exact Or.inl heq
  · right
    rw [hst]
    cases htransition with
    | incarnate hp ht => exact Or.inl ⟨ht, _, rfl⟩
    | tryAbort => exact Or.inr (Or.inl ⟨_, rfl⟩)
    | setExecuted => exact Or.inr (Or.inr (Pc.mem_claims.mpr (Or.inl ⟨_, rfl⟩)))
    | resume =>
        exact Or.inr (Or.inr (Pc.mem_claims.mpr (Or.inr (Or.inr List.mem_cons_self))))
    | setAborted => exact Or.inr (Or.inr (Pc.mem_claims.mpr (Or.inr (Or.inl ⟨_, rfl⟩))))

/-- A worker starts to push when it has taken the mutex of a list and found its
transaction not executed. -/
lemma Step.pushing_cases (h : Step cfg sh p mv p') {d : ℕ} (hpush : p'.pushing = some d) :
    p.pushing = some d ∨ mv = .lockDependency d ∧
      (d < cfg.numTxns → ∀ i, sh.txnStatus d ≠ .executed i) := by
  cases mv with
  | lockDependency d' =>
      cases h with
      | precheckLock hlock hexec | readLock hlock hexec =>
          cases hpush
          exact Or.inr ⟨rfl, hexec⟩
  | setDependency d' l => cases h <;> cases hpush
  | setStatus t st => cases h <;> cases hpush
  | _ => exact Or.inl (by rw [← (h.roles_eq rfl).2.2.2, hpush])

/-- A step to a push takes the mutex, a step from it gives the mutex back, and no
other step changes either: `takeDeps` has found the list unlocked. -/
lemma Step.pushing_share (h : Step cfg sh p mv p') {d : ℕ}
    (hheld : p.pushing = some d → sh.depLocked d = true) :
    (if p'.pushing = some d then 1 else 0) + (if sh.depLocked d then 1 else 0) =
      (if p.pushing = some d then 1 else 0) + if (mv.perform sh).depLocked d then 1 else 0 := by
  cases mv with
  | lockDependency d' =>
      change _ = _ + if Function.update sh.depLocked d' true d then 1 else 0
      cases h with
      | precheckLock hlock | readLock hlock =>
          by_cases hd : d = d'
          · subst hd
            simp [Pc.pushing, hlock]
          · simp [Pc.pushing, hd, Ne.symm hd]
  | setDependency d' l =>
      change _ = _ + if Function.update sh.depLocked d' false d then 1 else 0
      by_cases hd : d = d'
      · subst hd
        cases h with
        | precheckPush | readPush => simp [Pc.pushing, hheld rfl]
        | takeDeps hlock => simp [Pc.pushing, hlock]
      · cases h <;> simp [Pc.pushing, hd, Ne.symm hd]
  | setStatus t st => cases h <;> rfl
  | _ =>
      rw [(h.roles_eq rfl).2.2.2]
      rfl

omit [DecidableEq K] in
lemma listed_setDependency (sh : Shared K V O E) {d : ℕ} (hd : d < cfg.numTxns) (l : List ℕ)
    (t : ℕ) :
    listed cfg (Move.perform sh (.setDependency d l)) t + (sh.txnDependency d).count t =
      listed cfg sh t + l.count t :=
  sum_update_add (fun l => l.count t) sh.txnDependency (mem_range.mpr hd) l

omit [DecidableEq K] in
lemma listed_setDependency_of_le (sh : Shared K V O E) {d : ℕ} (hd : cfg.numTxns ≤ d)
    (l : List ℕ) (t : ℕ) :
    listed cfg (Move.perform sh (.setDependency d l)) t = listed cfg sh t := by
  refine Finset.sum_congr rfl fun d' hd' => ?_
  have hne : d' ≠ d := by
    have := mem_range.mp hd'
    omega
  show (Function.update sh.txnDependency d l d').count t = _
  rw [Function.update_of_ne hne]

/-- The claims that a push or a drain takes from the worker or gives to it are
those the list gains or loses. -/
lemma Step.claims_setDependency {d : ℕ} {l : List ℕ} (h : Step cfg sh p (.setDependency d l) p')
    (t : ℕ) : p'.claims.count t + l.count t = p.claims.count t + (sh.txnDependency d).count t := by
  cases h with
  | precheckPush | readPush =>
      simp [Pc.claims, Pc.running, Pc.aborting, Pc.drained]
      omega
  | takeDeps hlock => simp [Pc.claims, Pc.running, Pc.aborting, Pc.drained]

/-- The claims a status transition adds or removes match the change of the
status. -/
lemma Step.claims_setStatus {t' : ℕ} {st : TransactionStatus}
    (h : Step cfg sh p (.setStatus t' st) p') (t : ℕ) :
    p'.claims.count t + (sh.txnStatus t).busy =
      p.claims.count t + ((Move.perform sh (.setStatus t' st)).txnStatus t).busy := by
  by_cases htt : t = t'
  · subst htt
    have hself : (Move.perform sh (.setStatus t st)).txnStatus t = st := Function.update_self ..
    rw [hself]
    cases h with
    | incarnate hidx hstatus | abortIncarnate hidx hstatus | setExecuted hstatus | resume hstatus
    | tryAbort hstatus | setAborted hstatus =>
        simp [hstatus, Pc.claims, Pc.running, Pc.aborting, Pc.drained, TransactionStatus.busy]
  · have hother : (Move.perform sh (.setStatus t' st)).txnStatus t = sh.txnStatus t :=
      Function.update_of_ne htt _ _
    have hne : ¬t' = t := fun heq => htt heq.symm
    rw [hother]
    cases h <;>
      simp [Pc.claims, Pc.running, Pc.aborting, Pc.drained, hne]

/-! ### The invariant -/

variable {m : ℕ} {s : LeapState m K V O E} {w : Fin m}

/-- Somebody will still drain the list of `d`: `d` is not `Executed`, or a
worker is about to take the list. -/
def Awaited (s : LeapState m K V O E) (d : ℕ) : Prop :=
  (∀ i, s.shared.txnStatus d ≠ .executed i) ∨ ∃ w i outside, s.pc w = .takeDeps d i outside

/-- The status a worker's claims rely on. -/
structure Fits (sh : Shared K V O E) (p : Pc K V O E) : Prop where
  running : ∀ t i, p.running = some (t, i) → sh.txnStatus t = .executing i
  aborting : ∀ t i, p.aborting = some (t, i) → sh.txnStatus t = .aborting i
  drained : ∀ t ∈ p.drained, ∃ i, sh.txnStatus t = .executing i
  ordered : p.Ordered

omit [DecidableEq K] in
/-- A worker without claims relies on no status. -/
lemma Fits.of_free (hrun : p.running = none) (habort : p.aborting = none) (hdrain : p.drained = [])
    (hordered : p.Ordered) : Fits sh p where
  running t i ht := by
    rw [hrun] at ht
    cases ht
  aborting t i ht := by
    rw [habort] at ht
    cases ht
  drained t ht := by
    rw [hdrain] at ht
    cases ht
  ordered := hordered

/-- The waiting invariant. -/
structure Waiting (cfg : Setup T K V O E) (s : LeapState m K V O E) : Prop where
  /-- No transaction beyond the block is ever started. -/
  beyond : ∀ t, cfg.numTxns ≤ t → s.shared.txnStatus t = .readyToExecute 0
  /-- A busy transaction is claimed once, any other not at all. -/
  claimed : ∀ t, tally (fun wk => wk.pc.claims.count t) s + listed cfg s.shared t =
    (s.shared.txnStatus t).busy
  /-- One worker pushes onto a locked list, nobody onto another. -/
  locked : ∀ d, tally (fun wk => if wk.pc.pushing = some d then 1 else 0) s =
    if s.shared.depLocked d then 1 else 0
  fits : ∀ w, Fits s.shared (s.pc w)
  /-- Whoever is listed waits for a lower index, as `Executing`. -/
  waits : ∀ d t, t ∈ s.shared.txnDependency d →
    d < t ∧ ∃ i, s.shared.txnStatus t = .executing i
  awaited : ∀ d t, t ∈ s.shared.txnDependency d → Awaited s d
  pushing : ∀ w d, (s.pc w).pushing = some d → Awaited s d

namespace Waiting

omit [DecidableEq K] in
lemma lt_of_executing (hs : Waiting cfg s) {t i : ℕ} (h : s.shared.txnStatus t = .executing i) :
    t < cfg.numTxns := by
  by_contra hge
  rw [hs.beyond t (by omega)] at h
  cases h

omit [DecidableEq K] in
lemma busy_le_one (st : TransactionStatus) : st.busy ≤ 1 := by
  cases st <;> simp [TransactionStatus.busy]

omit [DecidableEq K] in
/-- A transaction that is listed is claimed by no worker. -/
lemma listed_eq_one (hs : Waiting cfg s) {d t : ℕ} (h : t ∈ s.shared.txnDependency d) :
    listed cfg s.shared t = 1 ∧ ∀ w, t ∉ (s.pc w).claims := by
  obtain ⟨hlt, i, hi⟩ := hs.waits d t h
  have ht := hs.lt_of_executing hi
  have hd : d ∈ range cfg.numTxns := mem_range.mpr (by omega)
  have hcount := List.count_pos_iff.mpr h
  have hle := Finset.single_le_sum (f := fun d => (s.shared.txnDependency d).count t)
    (fun _ _ => Nat.zero_le _) hd
  have hlisted : 0 < listed cfg s.shared t := lt_of_lt_of_le hcount hle
  have hclaimed := hs.claimed t
  have hbusy := busy_le_one (s.shared.txnStatus t)
  refine ⟨by omega, fun w hw => ?_⟩
  have hw : 0 < (s.pc w).claims.count t := List.count_pos_iff.mpr hw
  have htally := le_tally (fun wk => wk.pc.claims.count t) s w
  change (s.pc w).claims.count t ≤ _ at htally
  omega

omit [DecidableEq K] in
/-- A transaction that a worker claims is claimed once, by that worker, and is
busy. -/
lemma claim_unique (hs : Waiting cfg s) {t : ℕ} (h : t ∈ (s.pc w).claims) :
    (s.pc w).claims.count t = 1 ∧ (s.shared.txnStatus t).busy = 1 ∧
      ∀ w' ≠ w, t ∉ (s.pc w').claims := by
  have hclaimed := hs.claimed t
  have hbusy := busy_le_one (s.shared.txnStatus t)
  have hw : 0 < (s.pc w).claims.count t := List.count_pos_iff.mpr h
  have htally := le_tally (fun wk => wk.pc.claims.count t) s w
  change (s.pc w).claims.count t ≤ _ at htally
  refine ⟨by omega, by omega, fun w' hne hw' => ?_⟩
  have htwo := add_le_tally (fun wk => wk.pc.claims.count t) s hne
  change (s.pc w).claims.count t + (s.pc w').claims.count t ≤ _ at htwo
  have hw' : 0 < (s.pc w').claims.count t := List.count_pos_iff.mpr hw'
  omega

/-- Only the holder of the claim changes the status of a claimed transaction. -/
lemma status_eq_of_claimed (hs : Waiting cfg s) (h : Step cfg s.shared (s.pc w) mv p')
    {w' : Fin m} (hne : w' ≠ w) {t : ℕ} (ht : t ∈ (s.pc w').claims) :
    (mv.perform s.shared).txnStatus t = s.shared.txnStatus t := by
  obtain ⟨-, hbusy, hothers⟩ := hs.claim_unique ht
  rcases h.txnStatus_eq_or t with heq | ⟨-, i, hi⟩ | ⟨i, hi⟩ | hmem
  · exact heq
  · rw [hi] at hbusy
    cases hbusy
  · rw [hi] at hbusy
    cases hbusy
  · exact absurd hmem (hothers w hne.symm)

/-- Nobody but `resume` changes the status of a listed transaction. -/
lemma status_eq_of_listed (hs : Waiting cfg s) (h : Step cfg s.shared (s.pc w) mv p') {d t : ℕ}
    (ht : t ∈ s.shared.txnDependency d) :
    (mv.perform s.shared).txnStatus t = s.shared.txnStatus t := by
  obtain ⟨-, hnone⟩ := hs.listed_eq_one ht
  obtain ⟨-, i, hi⟩ := hs.waits d t ht
  rcases h.txnStatus_eq_or t with heq | ⟨-, j, hj⟩ | ⟨j, hj⟩ | hmem
  · exact heq
  · rw [hi] at hj
    cases hj
  · rw [hi] at hj
    cases hj
  · exact absurd hmem (hnone w)

/-! ### One step -/

/-- What another worker's claims rely on survives a step. -/
lemma fits_other (hs : Waiting cfg s) (h : Step cfg s.shared (s.pc w) mv p') {w' : Fin m}
    (hne : w' ≠ w) : Fits (mv.perform s.shared) (s.pc w') := by
  have hfits := hs.fits w'
  have hstatus {t : ℕ} (ht : t ∈ (s.pc w').claims) := hs.status_eq_of_claimed h hne ht
  refine ⟨fun t i ht => ?_, fun t i ht => ?_, fun t ht => ?_, hfits.ordered⟩
  · rw [hstatus (Pc.mem_claims.mpr (Or.inl ⟨i, ht⟩))]
    exact hfits.running t i ht
  · rw [hstatus (Pc.mem_claims.mpr (Or.inr (Or.inl ⟨i, ht⟩)))]
    exact hfits.aborting t i ht
  · rw [hstatus (Pc.mem_claims.mpr (Or.inr (Or.inr ht)))]
    exact hfits.drained t ht

/-- The order of dependencies is kept: a dependency comes from a read below the
reader, a drained list from the list itself. -/
lemma ordered_step (hs : Waiting cfg s) (h : Step cfg s.shared (s.pc w) mv p') : p'.Ordered := by
  have hordered := (hs.fits w).ordered
  generalize s.pc w = p at h hordered
  cases h with
  | precheckEstimate hread | bodyEstimate hread => exact MVHashMap.lt_of_read_eq_dep hread
  | takeDeps hlock => exact fun t ht => (hs.waits _ t ht).1
  | resume hstatus => exact fun t ht => hordered t (List.mem_cons_of_mem _ ht)
  | schedule | doneTasksNo | doneAgainNo | doneStore | dropGuard hactive => exact ordered_resume _
  | _ => trivial

/-- What the worker's own claims rely on holds after its step. -/
lemma fits_self (hs : Waiting cfg s) (h : Step cfg s.shared (s.pc w) mv p') :
    Fits (mv.perform s.shared) p' := by
  have hordered := hs.ordered_step h
  have hfits := hs.fits w
  cases hmv : mv.claiming with
  | false =>
      obtain ⟨hrun, habort, hdrain, -⟩ := h.roles_eq hmv
      have hstatus : (mv.perform s.shared).txnStatus = s.shared.txnStatus :=
        Move.txnStatus_perform fun t st heq => by rw [heq] at hmv; cases hmv
      refine ⟨?_, ?_, ?_, hordered⟩
      · rw [hrun, hstatus]
        exact hfits.running
      · rw [habort, hstatus]
        exact hfits.aborting
      · rw [hdrain, hstatus]
        exact hfits.drained
  | true =>
      have hcount (t : ℕ) (ht : t ∈ (s.pc w).claims) := (hs.claim_unique ht).1
      generalize s.pc w = p at h hfits hcount
      cases h with
      | incarnate hidx hstatus | abortIncarnate hidx hstatus =>
          refine ⟨fun t i ht => ?_, fun _ _ ht => (by cases ht),
            fun _ ht => (by cases ht), hordered⟩
          obtain ⟨rfl, rfl⟩ := Prod.mk.inj (Option.some.inj ht)
          exact Function.update_self ..
      | tryAbort hstatus =>
          refine ⟨fun _ _ ht => (by cases ht), fun t i ht => ?_,
            fun _ ht => (by cases ht), hordered⟩
          obtain ⟨rfl, rfl⟩ := Prod.mk.inj (Option.some.inj ht)
          exact Function.update_self ..
      | @resume idx inc outside dep i deps minDep hstatus =>
          refine ⟨fun _ _ ht => (by cases ht), fun _ _ ht => (by cases ht),
            fun t ht => ?_, hordered⟩
          -- the transaction just resumed does not occur a second time in the drained list
          have hne : t ≠ dep := by
            rintro rfl
            have hmem : t ∈ deps := ht
            have hone := hcount t (Pc.mem_claims.mpr (Or.inr (Or.inr List.mem_cons_self)))
            change (t :: deps).count t = 1 at hone
            have hpos := List.count_pos_iff.mpr hmem
            rw [List.count_cons_self] at hone
            omega
          obtain ⟨j, hj⟩ := hfits.drained t (List.mem_cons_of_mem _ ht)
          exact ⟨j, (Function.update_of_ne hne _ _).trans hj⟩
      | precheckLock hlock hexec | readLock hlock hexec =>
          exact ⟨hfits.running, hfits.aborting, hfits.drained, hordered⟩
      | setExecuted hstatus | setAborted hstatus | precheckPush | readPush =>
          exact .of_free rfl rfl rfl hordered
      | takeDeps hlock =>
          exact ⟨fun _ _ ht => (by cases ht), fun _ _ ht => (by cases ht),
            fun t ht => (hs.waits _ t ht).2, hordered⟩
      | _ => cases hmv

/-- The list a worker stores to is that of a transaction of the block, or was
empty and stays empty. -/
lemma setDependency_range (hs : Waiting cfg s) {d : ℕ} {l : List ℕ}
    (h : Step cfg s.shared (s.pc w) (.setDependency d l) p') :
    d < cfg.numTxns ∨ s.shared.txnDependency d = [] ∧ l = [] := by
  have hfits := hs.fits w
  have hrunning {i j : ℕ} (hrun : (s.pc w).running = some (i, j)) : i < cfg.numTxns :=
    hs.lt_of_executing (hfits.running i j hrun)
  generalize s.pc w = p at h hfits hrunning
  cases h with
  | precheckPush => exact Or.inl (lt_trans hfits.ordered (hrunning rfl))
  | readPush => exact Or.inl (lt_trans hfits.ordered (hrunning rfl))
  | takeDeps hlock =>
      by_cases hd : d < cfg.numTxns
      · exact Or.inl hd
      · refine Or.inr ⟨List.eq_nil_iff_forall_not_mem.mpr fun t ht => ?_, rfl⟩
        obtain ⟨hlt, i, hi⟩ := hs.waits d t ht
        have := hs.lt_of_executing hi
        omega

/-- A step moves claims but keeps the balance. -/
lemma claimed_step (hs : Waiting cfg s) (h : Step cfg s.shared (s.pc w) mv p') (t : ℕ) :
    tally (fun wk => wk.pc.claims.count t) (s.move w (mv.perform s.shared) p') +
      listed cfg (mv.perform s.shared) t = ((mv.perform s.shared).txnStatus t).busy := by
  have hclaimed := hs.claimed t
  have hmove := tally_move (fun wk => wk.pc.claims.count t) s w (mv.perform s.shared) p'
  change _ + (s.pc w).claims.count t = _ + p'.claims.count t at hmove
  cases mv with
  | setStatus t' st =>
      have hbalance := h.claims_setStatus t
      change _ + listed cfg s.shared t = _
      omega
  | setDependency d l =>
      have hbalance := h.claims_setDependency t
      change _ = (s.shared.txnStatus t).busy
      rcases hs.setDependency_range h with hd | ⟨hnil, rfl⟩
      · have hlisted := listed_setDependency s.shared hd l t
        omega
      · by_cases hd : d < cfg.numTxns
        · have hlisted := listed_setDependency s.shared hd [] t
          omega
        · have hlisted := listed_setDependency_of_le s.shared (Nat.le_of_not_lt hd) [] t
          rw [hnil] at hbalance
          omega
  | lockDependency d =>
      have hsame : p'.claims = (s.pc w).claims := by
        generalize s.pc w = p at h
        cases h <;> rfl
      rw [hsame] at hmove
      change _ + listed cfg s.shared t = (s.shared.txnStatus t).busy
      omega
  | _ =>
      obtain ⟨hrun, habort, hdrain, -⟩ := h.roles_eq rfl
      have hsame : p'.claims = (s.pc w).claims := by
        rw [Pc.claims, hrun, habort, hdrain, Pc.claims]
      rw [hsame] at hmove
      change _ + listed cfg s.shared t = (s.shared.txnStatus t).busy
      omega

omit [DecidableEq K] in
lemma locked_of_pushing (hs : Waiting cfg s) {d : ℕ} (h : (s.pc w).pushing = some d) :
    s.shared.depLocked d = true := by
  have hle := le_tally (fun wk => if wk.pc.pushing = some d then 1 else 0) s w
  change (if (s.pc w).pushing = some d then 1 else 0) ≤ _ at hle
  rw [hs.locked d, if_pos h] at hle
  by_contra hunlocked
  rw [if_neg hunlocked] at hle
  omega

/-- The workers that push are those that hold a mutex. -/
lemma locked_step (hs : Waiting cfg s) (h : Step cfg s.shared (s.pc w) mv p') (d : ℕ) :
    tally (fun wk => if wk.pc.pushing = some d then 1 else 0)
      (s.move w (mv.perform s.shared) p') = if (mv.perform s.shared).depLocked d then 1 else 0 := by
  have hlocked := hs.locked d
  have hshare := h.pushing_share (d := d) hs.locked_of_pushing
  have hmove := tally_move (fun wk => if wk.pc.pushing = some d then 1 else 0) s w
    (mv.perform s.shared) p'
  change _ + (if (s.pc w).pushing = some d then 1 else 0) =
    _ + (if p'.pushing = some d then 1 else 0) at hmove
  omega

end Waiting

/-- The list of `d` is still to be drained after a step, unless the step drains
it, which takes its mutex. -/
lemma Awaited.step {d : ℕ} (ha : Awaited s d) (h : Step cfg s.shared (s.pc w) mv p') :
    Awaited (s.move w (mv.perform s.shared) p') d ∨
      s.shared.depLocked d = false ∧ mv = .setDependency d [] := by
  rcases ha with hstatus | ⟨w', i, outside, hw'⟩
  · left
    rcases h.transition d with heq | ⟨st, st', -, hnew, htransition⟩
    · exact Or.inl fun i hi => hstatus i (heq.symm.trans hi)
    · generalize s.pc w = p at htransition
      cases htransition with
      | setExecuted =>
          -- the worker that sets the status is the one that will take the list
          exact Or.inr ⟨w, _, _, s.pc_move_self ..⟩
      | _ =>
          refine Or.inl fun i hi => ?_
          change (mv.perform s.shared).txnStatus d = .executed i at hi
          rw [hnew] at hi
          cases hi
  · by_cases hne : w' = w
    · subst hne
      rw [hw'] at h
      cases h with
      | takeWait hlock => exact Or.inl (Or.inr ⟨w', i, outside, s.pc_move_self ..⟩)
      | takeDeps hlock => exact Or.inr ⟨hlock, rfl⟩
    · exact Or.inl (Or.inr ⟨w', i, outside, (s.pc_move_of_ne hne ..).trans hw'⟩)

namespace Waiting

/-- Whoever pushes onto a list will be woken. -/
lemma pushing_step (hs : Waiting cfg s) (h : Step cfg s.shared (s.pc w) mv p') (w' : Fin m)
    (d : ℕ) (hpush : ((s.move w (mv.perform s.shared) p').pc w').pushing = some d) :
    Awaited (s.move w (mv.perform s.shared) p') d := by
  have hold : (s.pc w').pushing = some d → Awaited (s.move w (mv.perform s.shared) p') d := by
    intro hpush
    rcases (hs.pushing w' d hpush).step h with ha | ⟨hunlocked, -⟩
    · exact ha
    · rw [hs.locked_of_pushing hpush] at hunlocked
      cases hunlocked
  by_cases hne : w' = w
  · subst hne
    rw [Global.pc_move_self] at hpush
    rcases h.pushing_cases hpush with hpushing | ⟨rfl, hexec⟩
    · exact hold hpushing
    · refine Or.inl fun i hi => ?_
      change s.shared.txnStatus d = .executed i at hi
      by_cases hd : d < cfg.numTxns
      · exact hexec hd i hi
      · rw [hs.beyond d (Nat.le_of_not_lt hd)] at hi
        cases hi
  · rw [Global.pc_move_of_ne s hne] at hpush
    exact hold hpush

/-- A listed transaction was listed before, or its worker has just pushed it. -/
lemma mem_txnDependency_step (h : Step cfg s.shared (s.pc w) mv p') {d t : ℕ}
    (ht : t ∈ (mv.perform s.shared).txnDependency d) :
    mv ≠ .setDependency d [] ∧ (t ∈ s.shared.txnDependency d ∨
      (mv.perform s.shared).txnStatus = s.shared.txnStatus ∧
        (∃ i, (s.pc w).running = some (t, i)) ∧ (s.pc w).pushing = some d ∧
        ((s.pc w).Ordered → d < t)) := by
  cases mv with
  | setDependency d' l =>
      change t ∈ Function.update s.shared.txnDependency d' l d at ht
      by_cases hd : d = d'
      · subst hd
        rw [Function.update_self] at ht
        generalize s.pc w = p at h
        cases h with
        | precheckPush | readPush =>
            refine ⟨by simp, ?_⟩
            rcases List.mem_append.mp ht with ht | ht
            · exact Or.inl ht
            · rw [List.mem_singleton.mp ht]
              exact Or.inr ⟨rfl, ⟨_, rfl⟩, rfl, id⟩
        | takeDeps hlock => cases ht
      · rw [Function.update_of_ne hd] at ht
        exact ⟨fun heq => hd (Move.setDependency.inj heq).1.symm, Or.inl ht⟩
  | _ => exact ⟨by simp, Or.inl ht⟩

/-- **The waiting invariant is kept by every step.** -/
theorem step (hs : Waiting cfg s) (h : Step cfg s.shared (s.pc w) mv p') :
    Waiting cfg (s.move w (mv.perform s.shared) p') where
  beyond := by
    intro t ht
    have hold := hs.beyond t ht
    rcases h.txnStatus_eq_or t with heq | ⟨hlt, -⟩ | ⟨i, hi⟩ | hmem
    · exact heq.trans hold
    · omega
    · rw [hold] at hi
      cases hi
    · have hbusy := (hs.claim_unique hmem).2.1
      rw [hold] at hbusy
      cases hbusy
  claimed := hs.claimed_step h
  locked := hs.locked_step h
  fits := Global.forall_pc_move (hs.fits_self h) fun w' hne => hs.fits_other h hne
  waits := by
    intro d t ht
    rw [Global.shared_move]
    obtain ⟨-, hmem | ⟨hstatus, ⟨i, hrun⟩, hpush, hlt⟩⟩ := mem_txnDependency_step h ht
    · rw [hs.status_eq_of_listed h hmem]
      exact hs.waits d t hmem
    · rw [hstatus]
      exact ⟨hlt (hs.fits w).ordered, i, (hs.fits w).running t i hrun⟩
  awaited := by
    intro d t ht
    obtain ⟨hmv, hmem | ⟨-, -, hpush, -⟩⟩ := mem_txnDependency_step h ht
    · rcases (hs.awaited d t hmem).step h with ha | ⟨-, heq⟩
      · exact ha
      · exact absurd heq hmv
    · rcases (hs.pushing w d hpush).step h with ha | ⟨-, heq⟩
      · exact ha
      · exact absurd heq hmv
  pushing := hs.pushing_step h

omit [DecidableEq K] in
/-- Unwinding a worker that panics keeps the invariant: the worker stays where
it stood, with its claims. -/
lemma panic (hs : Waiting cfg s) (w : Fin m) :
    Waiting cfg (s.panic w (Move.dropGuard.perform s.shared)) where
  beyond := hs.beyond
  claimed := by
    intro t
    rw [tally_panic_pc (fun p : Pc K V O E => p.claims.count t)]
    exact hs.claimed t
  locked := by
    intro d
    rw [tally_panic_pc (fun p : Pc K V O E => if p.pushing = some d then 1 else 0)]
    exact hs.locked d
  fits := by
    intro w'
    rw [Global.pc_panic]
    exact ⟨(hs.fits w').running, (hs.fits w').aborting, (hs.fits w').drained, (hs.fits w').ordered⟩
  waits := hs.waits
  awaited := by
    intro d t ht
    simp only [Awaited, Global.pc_panic]
    exact hs.awaited d t ht
  pushing := by
    intro w' d hpush
    rw [Global.pc_panic] at hpush
    simp only [Awaited, Global.pc_panic]
    exact hs.pushing w' d hpush

omit [DecidableEq K] in
lemma initial (cfg : Setup T K V O E) (m : ℕ) : Waiting cfg (LeapState.initial cfg m) where
  beyond := fun _ _ => rfl
  claimed := fun _ => by
    simp [tally, listed, LeapState.initial, Shared.initial, Pc.claims, Pc.running, Pc.aborting,
      Pc.drained, TransactionStatus.busy]
  locked := fun _ => by simp [tally, LeapState.initial, Shared.initial, Pc.pushing]
  fits := fun _ => .of_free rfl rfl rfl trivial
  waits := fun _ _ ht => by simp [LeapState.initial, Shared.initial] at ht
  awaited := fun _ _ ht => by simp [LeapState.initial, Shared.initial] at ht
  pushing := fun _ _ hpush => by simp [LeapState.initial, Global.pc, Pc.pushing] at hpush

end Waiting

/-- The waiting invariant holds after every run. -/
theorem waiting_leapRun (cfg : Setup T K V O E) (acts : List (Fin m × ℕ)) :
    Waiting cfg (leapRun cfg acts) :=
  leapRun_induction (Waiting.initial cfg m) (fun _ _ _ _ hs _ h => hs.step h)
    (fun _ w hs _ => hs.panic w) acts

/-! ### Nobody waits twice, and nobody waits in vain -/

omit [DecidableEq K] in
lemma Pc.exists_of_mem_drained {t : ℕ} (h : t ∈ p.drained) :
    ∃ d i outside deps minDep, p = .resume d i outside deps minDep ∧ t ∈ deps := by
  cases p with
  | resume d i outside deps minDep => exact ⟨d, i, outside, deps, minDep, rfl, h⟩
  | _ => cases h

/-- How often a transaction is listed: in the lists of `txn_dependency`, and in
those that a worker inside `finish_execution` has drained but not resumed. -/
def listings (cfg : Setup T K V O E) (s : LeapState m K V O E) (t : ℕ) : ℕ :=
  listed cfg s.shared t + tally (fun wk => wk.pc.drained.count t) s

omit [DecidableEq K] in
lemma Waiting.listings_le (hs : Waiting cfg s) (t : ℕ) :
    listings cfg s t ≤ (s.shared.txnStatus t).busy := by
  have hclaimed := hs.claimed t
  have hle : tally (fun wk => wk.pc.drained.count t) s ≤ tally (fun wk => wk.pc.claims.count t) s :=
    Finset.sum_le_sum fun w _ => (List.sublist_append_right _ _).count_le t
  rw [listings]
  omega

omit [DecidableEq K] in
/-- Whoever is listed is `Executing`. -/
lemma Waiting.executing_of_listings (hs : Waiting cfg s) {t : ℕ} (h : 0 < listings cfg s t) :
    ∃ i, s.shared.txnStatus t = .executing i := by
  rcases Nat.eq_zero_or_pos (StablecoinSystem.listed cfg s.shared t) with hzero | hpos
  · have htally : 0 < tally (fun wk => wk.pc.drained.count t) s := by
      rw [listings] at h
      omega
    obtain ⟨w, hw⟩ := exists_of_tally_pos htally
    exact (hs.fits w).drained t (List.count_pos_iff.mp hw)
  · obtain ⟨d, -, hd⟩ := Finset.exists_ne_zero_of_sum_ne_zero (Nat.ne_of_gt hpos)
    exact (hs.waits d t (List.count_pos_iff.mp (Nat.pos_of_ne_zero hd))).2

omit [DecidableEq K] in
/-- An `Executing` transaction that nobody runs is listed below a transaction
that will still wake it. -/
lemma Waiting.listed_of_not_running (hs : Waiting cfg s) {t i : ℕ}
    (hstatus : s.shared.txnStatus t = .executing i)
    (hrun : ∀ w j, (s.pc w).running ≠ some (t, j)) :
    ∃ d < t, (t ∈ s.shared.txnDependency d ∧ Awaited s d) ∨
      ∃ w i outside deps minDep, s.pc w = .resume d i outside deps minDep ∧ t ∈ deps := by
  have hclaimed := hs.claimed t
  rw [hstatus, TransactionStatus.busy] at hclaimed
  rcases Nat.eq_zero_or_pos (StablecoinSystem.listed cfg s.shared t) with hzero | hpos
  · have htally : 0 < tally (fun wk => wk.pc.claims.count t) s := by omega
    obtain ⟨w, hw⟩ := exists_of_tally_pos htally
    -- the one claim on it is not of a runner, and an aborting one contradicts the status
    rcases Pc.mem_claims.mp (List.count_pos_iff.mp hw) with ⟨j, hj⟩ | ⟨j, hj⟩ | hdrained
    · exact absurd hj (hrun w j)
    · have habort := (hs.fits w).aborting t j hj
      rw [hstatus] at habort
      cases habort
    · obtain ⟨d, i, outside, deps, minDep, hpc, ht⟩ := Pc.exists_of_mem_drained hdrained
      have hordered := (hs.fits w).ordered
      change s.pc w = _ at hpc
      rw [hpc] at hordered
      exact ⟨d, hordered t ht, Or.inr ⟨w, i, outside, deps, minDep, hpc, ht⟩⟩
  · obtain ⟨d, -, hd⟩ := Finset.exists_ne_zero_of_sum_ne_zero (Nat.ne_of_gt hpos)
    have hmem := List.count_pos_iff.mp (Nat.pos_of_ne_zero hd)
    exact ⟨d, (hs.waits d t hmem).1, Or.inl ⟨hmem, hs.awaited d t hmem⟩⟩

/-- A worker that has panicked did not die between the store of `Executed` and
the last `resume`: taking a list cannot fail, and `resume` finds `Executing`. -/
lemma not_waking_of_panicked (cfg : Setup T K V O E) (acts : List (Fin m × ℕ)) {w : Fin m}
    (hw : ((leapRun cfg acts).worker w).panicked = true) :
    (∀ d i outside, (leapRun cfg acts).pc w ≠ .takeDeps d i outside) ∧
      ∀ d i outside deps minDep, (leapRun cfg acts).pc w ≠ .resume d i outside deps minDep := by
  refine (leap cfg).panicked_run (P := fun p => (∀ d i outside, p ≠ .takeDeps d i outside) ∧
    ∀ d i outside deps minDep, p ≠ .resume d i outside deps minDep) (fun _ => rfl) acts ?_ hw
  intro acts' w' c hnext
  have hfits := (waiting_leapRun (m := m) cfg acts').fits w'
  have hnone : plan cfg c (leapRun (m := m) cfg acts').shared ((leapRun cfg acts').pc w') = none :=
    Option.map_eq_none_iff.mp hnext
  change (∀ d i outside, (leapRun cfg acts').pc w' ≠ _) ∧
    ∀ d i outside deps minDep, (leapRun cfg acts').pc w' ≠ _
  refine ⟨fun d i outside hpc => ?_, fun d i outside deps minDep hpc => ?_⟩
  · rw [hpc, plan] at hnone
    split at hnone <;> cases hnone
  · rw [hpc] at hnone hfits
    cases deps with
    | nil => cases minDep <;> cases hnone
    | cons dep deps =>
        obtain ⟨j, hj⟩ := hfits.drained dep List.mem_cons_self
        simp only [plan, hj] at hnone
        cases hnone

/-- **The scheduler's waiting invariant**, in every state the workers can
reach, whoever has panicked: no transaction is listed twice; whoever is listed
is `Executing`, and `resume`, `set_executed_status` and `set_aborted_status`
find the status they rely on; an `Executing` transaction that no live worker
runs was being run by a worker that has panicked, or is listed under a lower
index that will still wake it; and a worker that has panicked holds no list it
had to wake. -/
theorem waiting_invariant (cfg : Setup T K V O E) (m : ℕ) (acts : List (Fin m × ℕ)) :
    let s : LeapState m K V O E := leapRun cfg acts
    (∀ t, listings cfg s t ≤ 1) ∧
    (∀ t, 0 < listings cfg s t → ∃ i, s.shared.txnStatus t = .executing i) ∧
    (∀ w idx inc outside dep deps minDep,
      s.pc w = .resume idx inc outside (dep :: deps) minDep →
        ∃ i, s.shared.txnStatus dep = .executing i) ∧
    (∀ w idx inc outside, s.pc w = .setExecuted idx inc outside →
      s.shared.txnStatus idx = .executing inc) ∧
    (∀ w idx inc, s.pc w = .setAborted idx inc → s.shared.txnStatus idx = .aborting inc) ∧
    (∀ t i, s.shared.txnStatus t = .executing i →
      (∀ w j, (s.worker w).panicked = false → (s.pc w).running ≠ some (t, j)) →
      (∃ w, (s.worker w).panicked = true ∧ (s.pc w).running = some (t, i)) ∨
      ∃ d < t, (t ∈ s.shared.txnDependency d ∧ Awaited s d) ∨
        ∃ w i outside deps minDep, s.pc w = .resume d i outside deps minDep ∧ t ∈ deps) ∧
    (∀ w, (s.worker w).panicked = true → (∀ d i outside, s.pc w ≠ .takeDeps d i outside) ∧
      ∀ d i outside deps minDep, s.pc w ≠ .resume d i outside deps minDep) := by
  intro s
  have hs : Waiting cfg s := waiting_leapRun cfg acts
  refine ⟨fun t => ?_, fun t => hs.executing_of_listings, ?_, ?_, ?_, ?_,
    fun w => not_waking_of_panicked cfg acts⟩
  · exact (hs.listings_le t).trans (Waiting.busy_le_one _)
  · intro w idx inc outside dep deps minDep hpc
    exact (hs.fits w).drained dep (by rw [hpc]; exact List.mem_cons_self)
  · intro w idx inc outside hpc
    exact (hs.fits w).running idx inc (by rw [hpc]; rfl)
  · intro w idx inc hpc
    exact (hs.fits w).aborting idx inc (by rw [hpc]; rfl)
  · intro t i hstatus hlive
    by_cases hdead : ∃ w, (s.worker w).panicked = true ∧ (s.pc w).running = some (t, i)
    · exact Or.inl hdead
    · refine Or.inr (hs.listed_of_not_running hstatus fun w j hrun => ?_)
      -- the status names the incarnation its runner is in
      have hj := (hs.fits w).running t j hrun
      rw [hstatus] at hj
      cases hj
      cases hw : (s.worker w).panicked with
      | false => exact hlive w i hw hrun
      | true => exact hdead ⟨w, hw, hrun⟩

end StablecoinSystem
