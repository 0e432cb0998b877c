import StablecoinSystem.Leap.Versions

/-!
The panics of the data layer.

`MVHashMap::write` asserts that a cell it replaces is of an earlier
incarnation, `mark_estimate` and `delete` expect the path and the entry, and
`validate_one` expects a recorded read set. From the versions of a transaction
and from who edits them follows that none of these fails, for outputs that
repeat no key.

* `Ready`: what a worker relies on beyond `Holds`: the keys it marks are those
  of the recorded output, the reads it validates have been recorded;
* `Versions.incarnation_lt`, `Versions.cell_of_mem_prev`: what a write and a
  delete find;
* `data_layer_invariant`: no panic of the data layer is reachable, and an
  `Executed` transaction has exactly the cells of its recorded write set.
-/

namespace StablecoinSystem

variable {T K V O E : Type}

/-- No output that a transaction of the block returns repeats a key. -/
def Setup.DistinctWrites (cfg : Setup T K V O E) : Prop :=
  ∀ txn ∈ cfg.block, (cfg.task.executeTransaction txn).Returns fun status =>
    ((cfg.task.writesOf status).map Prod.fst).Nodup

/-- What a worker relies on: the keys left to mark are in the recorded write
set, and from the recording of the reads to the start of their validation they
are there. -/
def Ready (cfg : Setup T K V O E) (sh : Shared K V O E) : Pc K V O E → Prop
  | .markEstimates t _ rest => ∀ k ∈ rest, k ∈ sh.writeSet cfg t
  | .recordOutput t _ _ _ | .setExecuted t _ _ | .takeDeps t _ _ | .resume t _ _ _ _
  | .decreaseExecution t _ _ _ | .countExecution t _ _ | .compareValidation t _ _
  | .validate t _ => (sh.inputs t).isSome
  | _ => True

variable {cfg : Setup T K V O E} {sh sh' : Shared K V O E} {p p' : Pc K V O E}
  {mv : Move K V O E}

lemma ready_resume (k : Resume) : Ready cfg sh (k.pc : Pc K V O E) :=
  k.pc_induction (P := Ready cfg sh) trivial trivial trivial

/-- A recorded read set is replaced, never removed. -/
lemma Move.inputs_isSome {t : ℕ} (h : (sh.inputs t).isSome) :
    ((mv.perform sh).inputs t).isSome := by
  cases mv with
  | setInput t' reads =>
      change (Function.update sh.inputs t' (some reads) t).isSome
      by_cases htt : t = t'
      · rw [htt, Function.update_self]
        rfl
      · rwa [Function.update_of_ne htt]
  | _ => exact h

/-- What a worker relies on survives a change elsewhere. -/
lemma Ready.congr (h : Ready cfg sh p)
    (hsame : ∀ t, p.editing = some t → SameAt sh (mv.perform sh) t) :
    Ready cfg (mv.perform sh) p := by
  cases p with
  | markEstimates t i rest =>
      intro k hk
      rw [(hsame t rfl).writeSet]
      exact h k hk
  | _ => first | trivial | exact Move.inputs_isSome h

variable [DecidableEq K] {hist : Values K V} {m : ℕ} {s : LeapState m K V O E} {w : Fin m}
  {t i : ℕ}

namespace Versions

omit [DecidableEq K] in
/-- Nobody edits an `Executed` transaction. -/
lemma settled_of_executed (hv : Versions cfg hist s) (hs : Waiting cfg s)
    (h : s.shared.txnStatus t = .executed i) :
    ∃ reads status, Settled cfg hist s.shared t i reads status := by
  have hrest := hv.rest t fun w hedit => by
    have hbusy := (hs.claim_unique (Pc.mem_claims_of_editing hedit)).2.1
    rw [h] at hbusy
    cases hbusy
  rw [AtRest, h] at hrest
  exact hrest

omit [DecidableEq K] in
/-- A cell that a write replaces is of an earlier incarnation. -/
lemma incarnation_lt (hv : Versions cfg hist s) (hwrites : cfg.DistinctWrites)
    {reads : List (ReadDescriptor K)} {status : ExecutionStatus O E} {k : K} {v : V}
    {writes : List (K × V)} {prev : List K} {outside : Bool} {c : WriteCell V}
    (hpc : s.pc w = .applyWrites t i reads status ((k, v) :: writes) prev outside)
    (hc : s.shared.data.cell k t = some c) : c.incarnation < i := by
  obtain ⟨htraced, written, heq, hwritten⟩ : Holds cfg hist s.shared
    (.applyWrites t i reads status ((k, v) :: writes) prev outside) := hpc ▸ hv.holds w
  have hkeys := htraced.returned hwrites
  rw [heq, List.map_append, List.nodup_append] at hkeys
  rcases hwritten.fresh k _ _ (hv.cells k t c hc) with hlt | ⟨-, hmem⟩
  · exact hlt
  · exact absurd rfl (hkeys.2.2 k hmem k List.mem_cons_self)

omit [DecidableEq K] in
/-- A key that is deleted has an entry. -/
lemma cell_of_mem_prev (hv : Versions cfg hist s) {reads : List (ReadDescriptor K)}
    {status : ExecutionStatus O E} {k : K} {prev : List K} {outside : Bool}
    (hpc : s.pc w = .deletes t i reads status prev outside) (hk : k ∈ prev) :
    ∃ c, s.shared.data.cell k t = some c := by
  have hholds := hv.holds w
  rw [hpc] at hholds
  obtain ⟨c, hc, -⟩ := hholds.2.marked k hk
  exact ⟨c, hc⟩

/-- What the worker relies on after its own step. -/
lemma ready_self (hv : Versions cfg hist s) (hs : Waiting cfg s)
    (hr : Ready cfg s.shared (s.pc w)) (h : Step cfg s.shared (s.pc w) mv p') :
    Ready cfg (mv.perform s.shared) p' := by
  generalize s.pc w = p at h hr
  cases h with
  | recordInput =>
      change (Function.update s.shared.inputs _ (some _) _).isSome
      rw [Function.update_self]
      rfl
  | validateTask hidx hstatus =>
      obtain ⟨reads, status, hset⟩ := hv.settled_of_executed hs hstatus
      exact Option.isSome_iff_exists.mpr ⟨reads, hset.inputs⟩
  | writeSet => exact fun k hk => hk
  | markEstimate hk hmark => exact fun k hk' => hr k (mem_without.mp hk').1
  | schedule | doneTasksNo | doneAgainNo | doneStore | dropGuard hactive => exact ready_resume _
  | _ => first | exact hr | trivial

end Versions

/-- What the workers rely on holds after every run. -/
theorem ready_leapRun (cfg : Setup T K V O E) (acts : List (Fin m × ℕ)) (w : Fin m) :
    Ready cfg (leapRun cfg acts).shared ((leapRun cfg acts).pc w) := by
  refine (leapRun_induction (I := fun s => Waiting cfg s ∧ (∃ hist, Versions cfg hist s) ∧
    ∀ w, Ready cfg s.shared (s.pc w))
    ⟨Waiting.initial cfg m, ⟨_, Versions.initial cfg m⟩, fun _ => trivial⟩ ?_ ?_ acts).2.2 w
  · rintro s w mv p' ⟨hs, ⟨hist, hv⟩, hr⟩ - h
    refine ⟨hs.step h, hv.step hs h, Global.forall_pc_move (hv.ready_self hs (hr w) h) ?_⟩
    intro w' hne
    refine (hr w').congr fun t hedit => h.sameAt fun hw => ?_
    exact (hs.claim_unique (Pc.mem_claims_of_editing hedit)).2.2 w hne.symm
      (Pc.mem_claims_of_editing hw)
  · rintro s w ⟨hs, ⟨hist, hv⟩, hr⟩ -
    refine ⟨hs.panic w, ⟨hist, hv.panic w⟩, fun w' => ?_⟩
    have hsame (t : ℕ) : SameAt s.shared (Move.dropGuard.perform s.shared) t :=
      ⟨fun _ => rfl, rfl, rfl⟩
    rw [Global.pc_panic]
    exact (hr w').congr fun t _ => hsame t

/-! ### No panic of the data layer -/

/-- A key that is marked has an entry. -/
lemma cell_of_mem_marking (acts : List (Fin m × ℕ)) {k : K} {rest : List K}
    (hpc : (leapRun cfg acts).pc w = .markEstimates t i rest) (hk : k ∈ rest) :
    ∃ c, (leapRun cfg acts).shared.data.cell k t = some c := by
  obtain ⟨hist, hv⟩ := versions_leapRun cfg acts
  have hholds := hv.holds w
  have hready := ready_leapRun cfg acts w
  rw [hpc] at hholds hready
  obtain ⟨c, hc, -⟩ := hholds.1.marked k (hready k hk)
  exact ⟨c, hc⟩

/-- A validated transaction has a recorded read set. -/
lemma inputs_of_validate (acts : List (Fin m × ℕ))
    (hpc : (leapRun cfg acts).pc w = .validate t i) :
    ∃ reads, (leapRun cfg acts).shared.inputs t = some reads := by
  have hready := ready_leapRun cfg acts w
  rw [hpc] at hready
  exact Option.isSome_iff_exists.mp hready

/-- The operation of the data layer that the worker performs next does not
panic. -/
def DataSafe (sh : Shared K V O E) : Pc K V O E → Prop
  | .applyWrites t i _ _ ((k, v) :: _) _ _ => (sh.data.write k (t, i) v).2 = true
  | .writeFailed _ _ => False
  | .deletes t _ _ _ prev _ => ∀ k ∈ prev, (sh.data.delete k t).isSome
  | .validate t _ => (sh.inputs t).isSome
  | .markEstimates t _ rest => ∀ k ∈ rest, (sh.data.markEstimate k t).isSome
  | _ => True

lemma dataSafe_leapRun (hwrites : cfg.DistinctWrites) (acts : List (Fin m × ℕ)) (w : Fin m) :
    DataSafe (leapRun cfg acts).shared ((leapRun cfg acts).pc w) := by
  obtain ⟨hist, hv⟩ := versions_leapRun cfg acts
  cases hpc : (leapRun cfg acts).pc w with
  | applyWrites t i reads status writes prev outside =>
      cases writes with
      | nil => trivial
      | cons kv writes =>
          exact MVHashMap.write_snd_iff.mpr fun c => hv.incarnation_lt hwrites hpc
  | writeFailed t i =>
      obtain ⟨reads, status, htraced, htwice⟩ : Holds cfg hist _ (.writeFailed t i) :=
        hpc ▸ hv.holds w
      exact absurd (htraced.returned hwrites) htwice
  | deletes t i reads status prev outside =>
      intro k hk
      obtain ⟨c, hc⟩ := hv.cell_of_mem_prev hpc hk
      exact MVHashMap.isSome_delete hc
  | validate t i => exact Option.isSome_iff_exists.mpr (inputs_of_validate acts hpc)
  | markEstimates t i rest =>
      intro k hk
      obtain ⟨c, hc⟩ := cell_of_mem_marking acts hpc hk
      exact MVHashMap.isSome_markEstimate hc
  | _ => trivial

omit [DecidableEq K] in
/-- The keys at which a settled transaction has an entry are its recorded write
set, and its entries are done and of its incarnation. -/
lemma Settled.entries {reads : List (ReadDescriptor K)} {status : ExecutionStatus O E}
    (h : Settled cfg hist sh t i reads status) :
    (∀ k, (∃ c, sh.data.cell k t = some c) ↔ k ∈ sh.writeSet cfg t) ∧
      ∀ k c, sh.data.cell k t = some c → c.incarnation = i ∧ c.flag = .done := by
  have hmem {k : K} {c : WriteCell V} (hc : sh.data.cell k t = some c) :
      k ∈ (cfg.task.writesOf status).map Prod.fst := by
    rcases h.written.only k c hc with hk | hk
    · exact hk
    · cases hk
  refine ⟨fun k => ⟨?_, fun hk => ?_⟩, fun k c hc => ?_⟩
  · rintro ⟨c, hc⟩
    rw [h.writeSet]
    exact hmem hc
  · rw [h.writeSet] at hk
    obtain ⟨⟨k, v⟩, hkv, rfl⟩ := List.mem_map.mp hk
    exact ⟨_, h.written.done k v hkv⟩
  · obtain ⟨⟨k, v⟩, hkv, rfl⟩ := List.mem_map.mp (hmem hc)
    rw [h.written.done k v hkv] at hc
    cases hc
    exact ⟨rfl, rfl⟩

/-- **The bookkeeping of the data layer**, in every state the workers can reach,
for outputs that repeat no key: a cell that is overwritten is of an earlier
incarnation, so the assertion of no write has failed, what is marked or deleted
is there, a validated transaction has a recorded read set, and the entries of an
`Executed` transaction are its recorded write set, of its incarnation and none of
them an estimate. -/
theorem data_layer_invariant (cfg : Setup T K V O E) (hwrites : cfg.DistinctWrites) (m : ℕ)
    (acts : List (Fin m × ℕ)) :
    let s : LeapState m K V O E := leapRun cfg acts
    (∀ w t i reads status k v writes prev outside,
      s.pc w = .applyWrites t i reads status ((k, v) :: writes) prev outside →
        (∀ c, s.shared.data.cell k t = some c → c.incarnation < i) ∧
          (s.shared.data.write k (t, i) v).2 = true) ∧
    (∀ w t i, s.pc w ≠ .writeFailed t i) ∧
    (∀ w t i rest, s.pc w = .markEstimates t i rest → ∀ k ∈ rest,
      (∃ c, s.shared.data.cell k t = some c) ∧ (s.shared.data.markEstimate k t).isSome) ∧
    (∀ w t i reads status prev outside, s.pc w = .deletes t i reads status prev outside →
      ∀ k ∈ prev,
        (∃ c, s.shared.data.cell k t = some c) ∧ (s.shared.data.delete k t).isSome) ∧
    (∀ w t i, s.pc w = .validate t i → ∃ reads, s.shared.inputs t = some reads) ∧
    (∀ t i, s.shared.txnStatus t = .executed i →
      (∀ k, (∃ c, s.shared.data.cell k t = some c) ↔ k ∈ s.shared.writeSet cfg t) ∧
        ∀ k c, s.shared.data.cell k t = some c → c.incarnation = i ∧ c.flag = .done) := by
  intro s
  obtain ⟨hist, hv⟩ := versions_leapRun cfg acts
  have hsafe : ∀ w, DataSafe s.shared (s.pc w) := dataSafe_leapRun hwrites acts
  refine ⟨?_, ?_, ?_, ?_, ?_, ?_⟩
  · intro w t i reads status k v writes prev outside hpc
    have hwrite := hsafe w
    rw [hpc] at hwrite
    exact ⟨fun c => hv.incarnation_lt hwrites hpc, hwrite⟩
  · intro w t i hpc
    have hfailed := hsafe w
    rw [hpc] at hfailed
    exact hfailed
  · intro w t i rest hpc k hk
    have hmark := hsafe w
    rw [hpc] at hmark
    exact ⟨cell_of_mem_marking acts hpc hk, hmark k hk⟩
  · intro w t i reads status prev outside hpc k hk
    have hdelete := hsafe w
    rw [hpc] at hdelete
    exact ⟨hv.cell_of_mem_prev hpc hk, hdelete k hk⟩
  · intro w t i hpc
    exact inputs_of_validate acts hpc
  · intro t i hstatus
    obtain ⟨reads, status, hset⟩ := hv.settled_of_executed (waiting_leapRun cfg acts) hstatus
    exact hset.entries

lemma distinctWrites_counterBlock : counterBlock.DistinctWrites := by
  rintro txn - ((_ | _) | _) <;> exact List.nodup_singleton ()

/-- Two workers have executed the second transaction again after an abort. -/
theorem data_layer_invariant_counterBlock :
    let s : LeapState 2 Unit ℕ ℕ Unit := leapRun counterBlock (race 55)
    s.shared.txnStatus 1 = .executed 1 ∧
      ∀ k, (∃ c, s.shared.data.cell k 1 = some c) ↔ k ∈ s.shared.writeSet counterBlock 1 := by
  have hstatus : (leapRun counterBlock (race 55)).shared.txnStatus 1 = .executed 1 := by
    decide +kernel
  have hlayer := data_layer_invariant counterBlock distinctWrites_counterBlock 2 (race 55)
  exact ⟨hstatus, (hlayer.2.2.2.2.2 1 1 hstatus).1⟩

end StablecoinSystem
