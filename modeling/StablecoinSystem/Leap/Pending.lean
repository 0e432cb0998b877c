import StablecoinSystem.Leap.Versions

/-!
No transaction is forgotten.

* `Runnable`: a transaction that is ready to execute lies at or above
  `execution_idx`, or a worker is about to start it or to lower the index.
* `Validated`: a recorded read of an `Executed` transaction is valid now, or
  the transaction lies at or above `validation_idx`, or a worker is about to
  test the read or to lower the index.

The second rests on what `execute_one` counts as a write outside the previous
write set: a write over an estimate, or the deletion of one, does not change
what a valid read above it sees (`isValid_of_estimate`). Every other change
disturbs (`Step.isValid_or_disturbs`), and lowers the validation index when the
execution or the abort finishes (`Step.willValidate_of_disturbs`).
-/

namespace StablecoinSystem

variable {T K V O E : Type}

/-! ### Execution -/

/-- The worker is about to start transaction `t`, or to lower `execution_idx`
to `t` or below. -/
def Pc.willExecute : Pc K V O E → ℕ → Prop
  | .executeIncarnate idx, t => idx = t
  | .resume _ _ _ _ (some target), t => target ≤ t
  | .decreaseExecution _ _ _ target, t => target ≤ t
  | .abortValidation idx, t | .abortCountValidation idx, t | .abortExecution idx, t
  | .abortIncarnate idx, t => idx = t
  | _, _ => False

/-- Every transaction that is ready will be looked at. -/
def Runnable {m : ℕ} (cfg : Setup T K V O E) (s : LeapState m K V O E) : Prop :=
  ∀ t < cfg.numTxns, ∀ i, s.shared.txnStatus t = .readyToExecute i →
    s.shared.executionIdx ≤ t ∨ ∃ w, (s.pc w).willExecute t

section Execution

variable [DecidableEq K] {cfg : Setup T K V O E} {sh : Shared K V O E} {p p' : Pc K V O E}
  {mv : Move K V O E} {t : ℕ}

/-- The execution index passes `t` only with a worker that starts `t`. -/
lemma Step.executionIdx_le (h : Step cfg sh p mv p') (hle : sh.executionIdx ≤ t) :
    (mv.perform sh).executionIdx ≤ t ∨ p'.willExecute t := by
  cases mv with
  | setExecutionIdx idx =>
      cases h with
      | executeFetch =>
          change sh.executionIdx + 1 ≤ t ∨ sh.executionIdx = t
          omega
      | decreaseExecution hlt => exact Or.inl (le_trans (min_le_left _ _) hle)
      | keepExecution hlt => exact Or.inl (le_trans (min_le_left _ _) hle)
  | _ => exact Or.inl hle

/-- A worker that is about to start `t` starts it, or hands it on. -/
lemma Step.willExecute (h : Step cfg sh p mv p') (hp : p.willExecute t) (ht : t < cfg.numTxns)
    {i : ℕ} (hready : (mv.perform sh).txnStatus t = .readyToExecute i) :
    (mv.perform sh).executionIdx ≤ t ∨ p'.willExecute t := by
  cases h with
  | incarnate hidx hstatus =>
      cases hp
      exact absurd ((Function.update_self ..).symm.trans hready) (by simp)
  | abortIncarnate hidx hstatus =>
      cases hp
      exact absurd ((Function.update_self ..).symm.trans hready) (by simp)
  | incarnateNone hnot =>
      cases hp
      exact absurd hready (hnot ht i)
  | abortIncarnateNone hnot =>
      cases hp
      exact absurd hready (hnot ht i)
  | @resume idx inc outside dep j deps minDep hstatus =>
      right
      cases minDep with
      | none => cases hp
      | some target => exact le_trans (min_le_left _ _) hp
  | resumedSome => exact Or.inr hp
  | decreaseExecution hlt => exact Or.inl (le_trans (min_le_right _ _) hp)
  | keepExecution hlt => exact Or.inl (le_trans (min_le_right _ _) hp)
  | abortDecrease hlt | abortKeep hlt | abortCount | abortBehind hlt => exact Or.inr hp
  | abortAhead hle => exact Or.inl (hp ▸ hle)
  | _ => cases hp

/-- A transaction becomes ready through `resume` or `set_aborted_status`, and
the worker goes on to see to it. -/
lemma Step.willExecute_of_ready (h : Step cfg sh p mv p') {i : ℕ}
    (hready : (mv.perform sh).txnStatus t = .readyToExecute i)
    (hold : sh.txnStatus t ≠ .readyToExecute i) : p'.willExecute t := by
  rcases h.transition t with heq | ⟨st, st', -, hst, htransition⟩
  · exact absurd (heq.symm.trans hready) hold
  · rw [hready] at hst
    cases htransition with
    | @resume idx inc j outside deps minDep =>
        cases minDep with
        | none => exact le_refl t
        | some target => exact min_le_right _ _
    | setAborted => rfl
    | _ => cases hst

variable {m : ℕ} {s : LeapState m K V O E} {w : Fin m}

lemma Runnable.step (hr : Runnable cfg s) (h : Step cfg s.shared (s.pc w) mv p') :
    Runnable cfg (s.move w (mv.perform s.shared) p') := by
  intro t ht i hready
  have hself : (mv.perform s.shared).executionIdx ≤ t ∨ p'.willExecute t →
      (mv.perform s.shared).executionIdx ≤ t ∨
        ∃ w', ((s.move w (mv.perform s.shared) p').pc w').willExecute t := by
    rintro (hle | hp)
    · exact Or.inl hle
    · exact Or.inr ⟨w, by rwa [Global.pc_move_self]⟩
  by_cases hold : s.shared.txnStatus t = .readyToExecute i
  · rcases hr t ht i hold with hle | ⟨w', hw'⟩
    · exact hself (h.executionIdx_le hle)
    · by_cases hne : w' = w
      · exact hself (h.willExecute (hne ▸ hw') ht hready)
      · exact Or.inr ⟨w', by rwa [Global.pc_move_of_ne s hne]⟩
  · exact hself (Or.inr (h.willExecute_of_ready hready hold))

end Execution

/-! ### Validation -/

/-- The worker is about to test the recorded read `r` of version `(t, i)`, or
to lower `validation_idx` to `t` or below. -/
def Pc.willValidate : Pc K V O E → ℕ → ℕ → ReadDescriptor K → Prop
  | .validateCheck _ idx, t, _, _ => idx = t
  | .validate idx inc, t, i, _ | .tryAbort idx inc, t, i, _ => idx = t ∧ inc = i
  | .validateReads idx inc rest, t, i, r => idx = t ∧ inc = i ∧ r ∈ rest
  | .takeDeps idx inc outside, t, i, _ | .resume idx inc outside _ _, t, i, _
  | .decreaseExecution idx inc outside _, t, i, _ | .countExecution idx inc outside, t, i, _
  | .compareValidation idx inc outside, t, i, _ =>
      idx = t ∧ inc = i ∨ idx < t ∧ outside = true
  | .decreaseValidation idx, t, _, _ => idx ≤ t
  | .applyWrites idx _ _ _ _ _ outside, t, _, _ | .deletes idx _ _ _ _ outside, t, _, _
  | .recordInput idx _ _ _ outside, t, _, _ | .recordOutput idx _ _ outside, t, _, _
  | .setExecuted idx _ outside, t, _, _ => idx < t ∧ outside = true
  | .writeSet idx _, t, _, _ | .markEstimates idx _ _, t, _, _ | .setAborted idx _, t, _, _
  | .abortValidation idx, t, _, _ => idx < t
  -- it would have been, had the write not failed
  | .writeFailed idx _, t, _, _ => idx < t
  | _, _, _, _ => False

/-- The transaction whose versions a step changes so that reads of them may
become invalid: by a write outside the previous write set, or by marking an
estimate. -/
def Pc.disturbs [DecidableEq K] : Pc K V O E → Pc K V O E → Option ℕ
  | .applyWrites idx _ _ _ ((k, _) :: _) prev _, _ => if k ∈ prev then none else some idx
  | .markEstimates idx _ _, .markEstimates _ _ _ => some idx
  | _, _ => none

/-- Every recorded read of an executed transaction is valid or will be looked
at. -/
def Validated {m : ℕ} (s : LeapState m K V O E) : Prop :=
  ∀ t i reads, s.shared.txnStatus t = .executed i → s.shared.inputs t = some reads →
    ∀ r ∈ reads, r.isValid s.shared.data t = true ∨ s.shared.validationIdx ≤ t ∨
      ∃ w, (s.pc w).willValidate t i r

section Validation

/-- Which cell makes a recorded read valid. -/
lemma isValid_iff {data : MVHashMap K V} {t : ℕ} {r : ReadDescriptor K} :
    r.isValid data t = true ↔
      (∃ j i v, r.kind = .mvHashMap j i ∧ data.read r.accessPath t = .ok ((j, i), v)) ∨
        r.kind = .storage ∧ data.read r.accessPath t = .error none := by
  rw [ReadDescriptor.isValid]
  cases hread : data.read r.accessPath t with
  | error dep =>
      cases dep with
      | none => simp [ReadDescriptor.validateStorage]
      | some dep => simp
  | ok found =>
      obtain ⟨⟨j, i⟩, v⟩ := found
      simp [ReadDescriptor.validateVersion, eq_comm]

/-- A read is valid still if no cell below the reader has changed. -/
lemma isValid_congr {data data' : MVHashMap K V} {t : ℕ} {r : ReadDescriptor K}
    (hvalid : r.isValid data t = true)
    (hsame : ∀ j < t, data'.cell r.accessPath j = data.cell r.accessPath j) :
    r.isValid data' t = true := by
  rw [ReadDescriptor.isValid] at hvalid ⊢
  rw [MVHashMap.read_congr hsame]
  exact hvalid

/-- A valid read lies above every estimate, so it stays valid whatever becomes
of the estimate. -/
lemma isValid_of_estimate {data data' : MVHashMap K V} {t idx : ℕ} {r : ReadDescriptor K}
    {c : WriteCell V} (hvalid : r.isValid data t = true)
    (hc : data.cell r.accessPath idx = some c) (hflag : c.flag = .estimate)
    (hsame : ∀ j ≠ idx, data'.cell r.accessPath j = data.cell r.accessPath j) :
    r.isValid data' t = true := by
  by_cases hidx : idx < t
  · rcases isValid_iff.mp hvalid with ⟨j, i, v, hkind, hread⟩ | ⟨-, hread⟩
    · obtain ⟨hj, hcell, habove⟩ := MVHashMap.read_eq_ok_iff.mp hread
      have hlt : idx < j := by
        rcases Nat.lt_trichotomy idx j with hlt | rfl | hgt
        · exact hlt
        · rw [hcell] at hc
          cases hc
          cases hflag
        · rw [habove idx hgt hidx] at hc
          cases hc
      refine isValid_iff.mpr (Or.inl ⟨j, i, v, hkind, MVHashMap.read_eq_ok_iff.mpr ⟨hj, ?_, ?_⟩⟩)
      · rw [hsame j (by omega)]
        exact hcell
      · intro j' hj' hj't
        rw [hsame j' (by omega)]
        exact habove j' hj' hj't
    · rw [MVHashMap.read_eq_storage_iff.mp hread idx hidx] at hc
      cases hc
  · exact isValid_congr hvalid fun j hj => hsame j (by omega)

variable [DecidableEq K] {cfg : Setup T K V O E} {hist : Values K V} {sh : Shared K V O E}
  {p p' : Pc K V O E} {mv : Move K V O E} {t i : ℕ} {r : ReadDescriptor K}

/-- The validation index passes `t` only with a worker that looks at `t`. -/
lemma Step.validationIdx_le (h : Step cfg sh p mv p') (hle : sh.validationIdx ≤ t) :
    (mv.perform sh).validationIdx ≤ t ∨ p'.willValidate t i r := by
  cases mv with
  | setValidationIdx idx =>
      cases h with
      | validateFetch =>
          change sh.validationIdx + 1 ≤ t ∨ sh.validationIdx = t
          omega
      | decreaseValidation hlt | keepValidation hlt | abortDecrease hlt | abortKeep hlt =>
          exact Or.inl (le_trans (min_le_left _ _) hle)
  | _ => exact Or.inl hle

/-- A valid read becomes invalid only by a step that disturbs the versions of a
lower transaction. -/
lemma Step.isValid_or_disturbs (h : Step cfg sh p mv p') (hholds : Holds cfg hist sh p)
    (hvalid : r.isValid sh.data t = true) :
    r.isValid (mv.perform sh).data t = true ∨ ∃ j < t, p.disturbs p' = some j := by
  cases mv with
  | setData data =>
      change r.isValid data t = true ∨ _
      cases h with
      | @applyWrite idx inc reads status k v writes prev outside _ hwrite
      | @writeFailed idx inc reads status k v writes prev outside _ hwrite =>
          have hcell := MVHashMap.cell_write hwrite
          obtain ⟨-, written, -, hwritten⟩ := hholds
          by_cases hk : r.accessPath = k
          · by_cases hprev : k ∈ prev
            · -- the write replaces an estimate
              obtain ⟨c, hc, hflag⟩ := hwritten.marked k hprev
              refine Or.inl (isValid_of_estimate hvalid (hk ▸ hc) hflag fun j hj => ?_)
              rw [hcell, if_neg fun h => hj h.2]
            · by_cases hidx : idx < t
              · exact Or.inr ⟨idx, hidx, if_neg hprev⟩
              · refine Or.inl (isValid_congr hvalid fun j hj => ?_)
                rw [hcell, if_neg]
                omega
          · refine Or.inl (isValid_congr hvalid fun j _ => ?_)
            rw [hcell, if_neg fun h => hk h.1]
      | @delete idx inc reads status k prev outside _ hk hdelete =>
          have hcell := MVHashMap.cell_delete hdelete
          obtain ⟨c, hc, hflag⟩ := hholds.2.marked k hk
          left
          by_cases hpath : r.accessPath = k
          · refine isValid_of_estimate hvalid (hpath ▸ hc) hflag fun j hj => ?_
            rw [hcell, if_neg fun h => hj h.2]
          · refine isValid_congr hvalid fun j _ => ?_
            rw [hcell, if_neg fun h => hpath h.1]
      | @markEstimate idx inc k rest _ hk hmark =>
          obtain ⟨c, -, hcell⟩ := MVHashMap.cell_markEstimate hmark
          by_cases hidx : idx < t
          · exact Or.inr ⟨idx, hidx, rfl⟩
          · refine Or.inl (isValid_congr hvalid fun j hj => ?_)
            rw [hcell, if_neg]
            omega
  | _ => exact Or.inl hvalid

/-- A worker that disturbs the versions of a transaction will have those above
it validated. -/
lemma Step.willValidate_of_disturbs (h : Step cfg sh p mv p') {j : ℕ} (hj : j < t)
    (hdisturbs : p.disturbs p' = some j) : p'.willValidate t i r := by
  cases h with
  | @applyWrite idx inc reads status k v writes prev outside _ hwrite =>
      obtain ⟨hprev, rfl⟩ : k ∉ prev ∧ idx = j := by simpa [Pc.disturbs] using hdisturbs
      exact ⟨hj, by simp [hprev]⟩
  | @writeFailed idx inc reads status k v writes prev outside _ hwrite =>
      obtain ⟨-, rfl⟩ : k ∉ prev ∧ idx = j := by simpa [Pc.disturbs] using hdisturbs
      exact hj
  | markEstimate hk hmark =>
      cases hdisturbs
      exact hj
  | _ => cases hdisturbs

/-- A worker that is about to test a read tests it, or hands it on. -/
lemma Step.willValidate (h : Step cfg sh p mv p') (hp : p.willValidate t i r)
    (ht : t < cfg.numTxns) (hstatus : sh.txnStatus t = .executed i)
    (hstatus' : (mv.perform sh).txnStatus t = .executed i) {reads : List (ReadDescriptor K)}
    (hreads : sh.inputs t = some reads) (hr : r ∈ reads) :
    r.isValid (mv.perform sh).data t = true ∨ (mv.perform sh).validationIdx ≤ t ∨
      p'.willValidate t i r := by
  cases h with
  | validateTask hidx hexec =>
      cases hp
      rw [hstatus] at hexec
      cases hexec
      exact Or.inr (Or.inr ⟨rfl, rfl⟩)
  | validateNone hnot =>
      cases hp
      exact absurd hstatus (hnot ht i)
  | validate hinputs =>
      obtain ⟨rfl, rfl⟩ := hp
      rw [hreads] at hinputs
      cases hinputs
      exact Or.inr (Or.inr ⟨rfl, rfl, hr⟩)
  | readValid hvalid =>
      obtain ⟨rfl, rfl, hmem⟩ := hp
      rcases List.mem_cons.mp hmem with rfl | hmem
      · exact Or.inl hvalid
      · exact Or.inr (Or.inr ⟨rfl, rfl, hmem⟩)
  | readInvalid => exact Or.inr (Or.inr ⟨hp.1, hp.2.1⟩)
  | allValid => cases hp.2.2
  | tryAbort hexec =>
      obtain ⟨rfl, rfl⟩ := hp
      exact absurd ((Function.update_self ..).symm.trans hstatus') (by simp)
  | abortLost hnot =>
      obtain ⟨rfl, rfl⟩ := hp
      exact absurd hstatus hnot
  | compareOutside hlt =>
      refine Or.inr (Or.inr ?_)
      rcases hp with ⟨rfl, -⟩ | ⟨hlt, -⟩
      · exact le_refl _
      · exact le_of_lt hlt
  | compareInside hlt =>
      rcases hp with hp | ⟨-, hfalse⟩
      · exact Or.inr (Or.inr hp)
      · cases hfalse
  | compareAhead hle =>
      refine Or.inr (Or.inl (le_trans hle ?_))
      rcases hp with ⟨rfl, -⟩ | ⟨hlt, -⟩
      · exact le_refl _
      · exact le_of_lt hlt
  | decreaseValidation hlt | keepValidation hle | abortDecrease hlt | abortKeep hle =>
      exact Or.inr (Or.inl (le_trans (min_le_right _ _) hp))
  | applyWrite hwrite => exact Or.inr (Or.inr ⟨hp.1, by rw [hp.2]; rfl⟩)
  | writeFailed hwrite => exact Or.inr (Or.inr hp.1)
  | setExecuted hexec => exact Or.inr (Or.inr (Or.inr hp))
  | _ => first | exact Or.inr (Or.inr hp) | cases hp

/-- A transaction becomes `Executed` through a worker that goes on to have it
validated. -/
lemma Step.willValidate_of_executed (h : Step cfg sh p mv p')
    (hnew : (mv.perform sh).txnStatus t = .executed i) (hold : sh.txnStatus t ≠ .executed i) :
    p'.willValidate t i r := by
  rcases h.transition t with heq | ⟨st, st', -, hst, htransition⟩
  · exact absurd (heq.symm.trans hnew) hold
  · rw [hnew] at hst
    cases htransition with
    | setExecuted =>
        cases hst
        exact Or.inl ⟨rfl, rfl⟩
    | _ => cases hst

variable {m : ℕ} {s : LeapState m K V O E} {w : Fin m}

lemma Validated.step (hval : Validated s) (hs : Waiting cfg s) (hv : Versions cfg hist s)
    (h : Step cfg s.shared (s.pc w) mv p') :
    Validated (s.move w (mv.perform s.shared) p') := by
  intro t i reads hstatus' hreads' r hr
  have hself : r.isValid (mv.perform s.shared).data t = true ∨
      (mv.perform s.shared).validationIdx ≤ t ∨ p'.willValidate t i r →
      r.isValid (mv.perform s.shared).data t = true ∨ (mv.perform s.shared).validationIdx ≤ t ∨
        ∃ w', ((s.move w (mv.perform s.shared) p').pc w').willValidate t i r := by
    rintro (hvalid | hle | hp)
    · exact Or.inl hvalid
    · exact Or.inr (Or.inl hle)
    · exact Or.inr (Or.inr ⟨w, by rwa [Global.pc_move_self]⟩)
  by_cases hstatus : s.shared.txnStatus t = .executed i
  · -- an executed transaction is claimed by nobody, so its reads are as recorded
    have hedit : (s.pc w).editing ≠ some t := by
      intro hedit
      have hbusy := (hs.claim_unique (Pc.mem_claims_of_editing hedit)).2.1
      rw [hstatus] at hbusy
      cases hbusy
    have ht : t < cfg.numTxns := by
      by_contra hge
      rw [hs.beyond t (Nat.le_of_not_lt hge)] at hstatus
      cases hstatus
    have hreads : s.shared.inputs t = some reads := (h.sameAt hedit).inputs.symm.trans hreads'
    rcases hval t i reads hstatus hreads r hr with hvalid | hle | ⟨w', hw'⟩
    · rcases h.isValid_or_disturbs (hv.holds w) hvalid with hvalid | ⟨j, hj, hdisturbs⟩
      · exact hself (Or.inl hvalid)
      · exact hself (Or.inr (Or.inr (h.willValidate_of_disturbs hj hdisturbs)))
    · rcases h.validationIdx_le hle with hle | hp
      · exact hself (Or.inr (Or.inl hle))
      · exact hself (Or.inr (Or.inr hp))
    · by_cases hne : w' = w
      · exact hself (h.willValidate (hne ▸ hw') ht hstatus hstatus' hreads hr)
      · exact Or.inr (Or.inr ⟨w', by rwa [Global.pc_move_of_ne s hne]⟩)
  · exact hself (Or.inr (Or.inr (h.willValidate_of_executed hstatus' hstatus)))

end Validation

end StablecoinSystem
