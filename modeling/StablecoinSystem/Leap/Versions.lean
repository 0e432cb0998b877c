import StablecoinSystem.Leap.Waiting

/-!
The versions in the multi-version map, and the reads recorded of them.

To each key, transaction and incarnation belong the values that version wrote.
They only grow in number, and unless the assertion of a write has failed there
is one (`Versions.single`), so a version stands for one value for good; a
recorded read therefore determines the value the transaction went on with
(`Trace`), although `validate_one` compares versions and never values.

* `AtRest`: what the cells, the recorded reads and the recorded output of a
  transaction are while nobody edits them, by its status. An `Executed` or
  `Aborting` transaction has exactly the cells of its recorded output
  (`Settled`), any other only estimates.
* `Holds`: what they are while a worker writes, deletes, records or marks.
* `Step.sameAt`: a step changes them only for the transaction it edits.
* `versions_leapRun`: the invariant holds after every run.
-/

namespace StablecoinSystem

variable {T K V O E : Type}

/-! ### Values and traces -/

/-- The values each version has written to each key. -/
def Values (K V : Type) : Type := K → ℕ → ℕ → V → Prop

namespace Values

/-- The later values include the earlier ones. -/
def Le (hist hist' : Values K V) : Prop := ∀ k t i v, hist k t i v → hist' k t i v

/-- The values of the versions of transaction `t` are the same. -/
def SameAt (hist hist' : Values K V) (t : ℕ) : Prop := ∀ k i v, hist' k t i v ↔ hist k t i v

/-- All versions of transaction `t` are of incarnations below `bound`. -/
def Below (hist : Values K V) (t bound : ℕ) : Prop := ∀ k i v, hist k t i v → i < bound

/-- No version has written two values to a key. -/
def Single (hist : Values K V) : Prop := ∀ k t i v v', hist k t i v → hist k t i v' → v = v'

lemma Le.refl (hist : Values K V) : hist.Le hist := fun _ _ _ _ h => h

lemma SameAt.refl (hist : Values K V) (t : ℕ) : hist.SameAt hist t := fun _ _ _ => Iff.rfl

lemma Below.congr {hist hist' : Values K V} {t bound : ℕ} (h : hist.Below t bound)
    (hsame : hist.SameAt hist' t) : hist'.Below t bound :=
  fun k i v hi => h k i v ((hsame k i v).mp hi)

lemma Below.mono {hist : Values K V} {t bound bound' : ℕ} (h : hist.Below t bound)
    (hle : bound ≤ bound') : hist.Below t bound' :=
  fun k i v hi => lt_of_lt_of_le (h k i v hi) hle

end Values

/-- The value each version wrote to each key, if no version wrote two. -/
def History (K V : Type) : Type := K → ℕ → ℕ → Option V

/-- The values of a history. -/
def History.values (hist : History K V) : Values K V := fun k t i v => hist k t i = some v

/-- Values of which no version has two are those of a history. -/
lemma Values.Single.exists_history {hist : Values K V} (h : hist.Single) :
    ∃ history : History K V, history.values = hist := by
  classical
  refine ⟨fun k t i => if hv : ∃ v, hist k t i v then some hv.choose else none, ?_⟩
  funext k t i v
  refine propext ⟨fun hv => ?_, fun hv => ?_⟩
  · simp only [History.values] at hv
    split at hv
    · rename_i hex
      exact Option.some.inj hv ▸ hex.choose_spec
    · cases hv
  · have hex : ∃ v, hist k t i v := ⟨v, hv⟩
    simp only [History.values, dif_pos hex]
    exact congrArg some (h k t i _ _ hex.choose_spec hv)

/-- A run of `b` that captured `reads` has come to `rest`: each read of a
version was answered with a value of that version. -/
inductive Trace {α : Type} (hist : Values K V) (b : Body K V α) :
    List (ReadDescriptor K) → Body K V α → Prop where
  | start : Trace hist b [] b
  | version {reads : List (ReadDescriptor K)} {key : K} {next : ReadResult V → Body K V α}
      {j i : ℕ} {v : V} (h : Trace hist b reads (.read key next)) (hv : hist key j i v) :
      Trace hist b (reads ++ [⟨key, .mvHashMap j i⟩]) (next (.ok (some v)))
  | storage {reads : List (ReadDescriptor K)} {key : K} {next : ReadResult V → Body K V α}
      (h : Trace hist b reads (.read key next)) :
      Trace hist b (reads ++ [⟨key, .storage⟩]) (next (.ok none))

lemma Trace.mono {α : Type} {hist hist' : Values K V} (hle : hist.Le hist') {b rest : Body K V α}
    {reads : List (ReadDescriptor K)} (h : Trace hist b reads rest) : Trace hist' b reads rest := by
  induction h with
  | start => exact .start
  | version _ hv ih => exact .version ih (hle _ _ _ _ hv)
  | storage _ ih => exact .storage ih

lemma Trace.returns {α : Type} {P : α → Prop} {hist : Values K V} {b rest : Body K V α}
    {reads : List (ReadDescriptor K)} (h : Trace hist b reads rest) (hb : b.Returns P) :
    rest.Returns P := by
  induction h with
  | start => exact hb
  | version _ _ ih => exact ih (.ok _)
  | storage _ ih => exact ih (.ok none)

/-- Transaction `t` of the block, having captured `reads`, has come to `rest`. -/
def Traced (cfg : Setup T K V O E) (hist : Values K V) (t : ℕ) (reads : List (ReadDescriptor K))
    (rest : Body K V (ExecutionStatus O E)) : Prop :=
  ∃ txn, cfg.block[t]? = some txn ∧ Trace hist (cfg.task.executeTransaction txn) reads rest

lemma Traced.mono {cfg : Setup T K V O E} {hist hist' : Values K V} (hle : hist.Le hist') {t : ℕ}
    {reads : List (ReadDescriptor K)} {rest : Body K V (ExecutionStatus O E)}
    (h : Traced cfg hist t reads rest) : Traced cfg hist' t reads rest := by
  obtain ⟨txn, htxn, htrace⟩ := h
  exact ⟨txn, htxn, htrace.mono hle⟩

/-- What every run of the transactions returns, this one has returned. -/
lemma Traced.returned {cfg : Setup T K V O E} {P : ExecutionStatus O E → Prop} {hist : Values K V}
    {t : ℕ} {reads : List (ReadDescriptor K)} {status : ExecutionStatus O E}
    (h : Traced cfg hist t reads (.ret status))
    (hP : ∀ txn ∈ cfg.block, (cfg.task.executeTransaction txn).Returns P) : P status := by
  obtain ⟨txn, htxn, htrace⟩ := h
  exact htrace.returns (hP txn (List.mem_of_getElem? htxn))

/-! ### The versions of one transaction -/

/-- The cells, the reads and the output of transaction `t` are the same. -/
structure SameAt (sh sh' : Shared K V O E) (t : ℕ) : Prop where
  cell : ∀ k, sh'.data.cell k t = sh.data.cell k t
  inputs : sh'.inputs t = sh.inputs t
  outputs : sh'.outputs t = sh.outputs t

variable {cfg : Setup T K V O E} {hist hist' : Values K V} {sh sh' : Shared K V O E} {t i : ℕ}

lemma SameAt.writeSet (h : SameAt sh sh' t) : sh'.writeSet cfg t = sh.writeSet cfg t := by
  rw [Shared.writeSet, Shared.writeSet, h.outputs]

/-- Transaction `t` has cells at the keys of its recorded output, all of them
estimates but for the keys in `pending`. -/
structure Estimated (cfg : Setup T K V O E) (sh : Shared K V O E) (t : ℕ) (pending : List K) :
    Prop where
  marked : ∀ k ∈ sh.writeSet cfg t, ∃ c, sh.data.cell k t = some c ∧
    (k ∈ pending ∨ c.flag = .estimate)
  only : ∀ k c, sh.data.cell k t = some c → k ∈ sh.writeSet cfg t

/-- Incarnation `i` of transaction `t` has made the writes `written`; at the
keys in `prev` it has the estimates of an earlier incarnation. -/
structure Written (hist : Values K V) (sh : Shared K V O E) (t i : ℕ) (written : List (K × V))
    (prev : List K) : Prop where
  done : ∀ k v, (k, v) ∈ written → sh.data.cell k t = some ⟨.done, i, v⟩
  marked : ∀ k ∈ prev, ∃ c, sh.data.cell k t = some c ∧ c.flag = .estimate
  only : ∀ k c, sh.data.cell k t = some c → k ∈ written.map Prod.fst ∨ k ∈ prev
  fresh : ∀ k j v, hist k t j v → j < i ∨ j = i ∧ k ∈ written.map Prod.fst

/-- Incarnation `i` of transaction `t` is recorded, and its cells are exactly
the writes of the recorded output. -/
structure Settled (cfg : Setup T K V O E) (hist : Values K V) (sh : Shared K V O E)
    (t i : ℕ) (reads : List (ReadDescriptor K)) (status : ExecutionStatus O E) : Prop where
  inputs : sh.inputs t = some reads
  outputs : sh.outputs t = some (recorded status)
  traced : Traced cfg hist t reads (.ret status)
  written : Written hist sh t i (cfg.task.writesOf status) []

/-- The versions of transaction `t` while nobody edits them. -/
def AtRest (cfg : Setup T K V O E) (hist : Values K V) (sh : Shared K V O E) (t : ℕ) : Prop :=
  match sh.txnStatus t with
  | .readyToExecute i | .executing i => Estimated cfg sh t [] ∧ hist.Below t i
  | .executed i | .aborting i => ∃ reads status, Settled cfg hist sh t i reads status

lemma Estimated.congr {pending : List K} (h : Estimated cfg sh t pending)
    (hsame : SameAt sh sh' t) : Estimated cfg sh' t pending := by
  refine ⟨?_, ?_⟩
  · rw [hsame.writeSet]
    intro k hk
    rw [hsame.cell]
    exact h.marked k hk
  · rw [hsame.writeSet]
    intro k c hc
    rw [hsame.cell] at hc
    exact h.only k c hc

lemma Written.congr {written : List (K × V)} {prev : List K} (h : Written hist sh t i written prev)
    (hsame : SameAt sh sh' t) (hhist : hist.SameAt hist' t) :
    Written hist' sh' t i written prev := by
  refine ⟨?_, ?_, ?_, ?_⟩
  · intro k v hkv
    rw [hsame.cell]
    exact h.done k v hkv
  · intro k hk
    rw [hsame.cell]
    exact h.marked k hk
  · intro k c hc
    rw [hsame.cell] at hc
    exact h.only k c hc
  · intro k j v hj
    exact h.fresh k j v ((hhist k j v).mp hj)

lemma Settled.congr {reads : List (ReadDescriptor K)} {status : ExecutionStatus O E}
    (h : Settled cfg hist sh t i reads status) (hsame : SameAt sh sh' t) (hle : hist.Le hist')
    (hhist : hist.SameAt hist' t) : Settled cfg hist' sh' t i reads status :=
  ⟨hsame.inputs.trans h.inputs, hsame.outputs.trans h.outputs, h.traced.mono hle,
    h.written.congr hsame hhist⟩

lemma AtRest.congr (h : AtRest cfg hist sh t) (hstatus : sh'.txnStatus t = sh.txnStatus t)
    (hsame : SameAt sh sh' t) (hle : hist.Le hist') (hhist : hist.SameAt hist' t) :
    AtRest cfg hist' sh' t := by
  rw [AtRest] at h ⊢
  rw [hstatus]
  split at h
  · exact ⟨h.1.congr hsame, h.2.congr hhist⟩
  · exact ⟨h.1.congr hsame, h.2.congr hhist⟩
  · obtain ⟨reads, status, hs⟩ := h
    exact ⟨reads, status, hs.congr hsame hle hhist⟩
  · obtain ⟨reads, status, hs⟩ := h
    exact ⟨reads, status, hs.congr hsame hle hhist⟩

@[simp] lemma writesOf_recorded (task : ExecutorTask T K V O E) (status : ExecutionStatus O E) :
    task.writesOf (recorded status) = task.writesOf status := by
  cases status <;> rfl

lemma Settled.writeSet {reads : List (ReadDescriptor K)} {status : ExecutionStatus O E}
    (h : Settled cfg hist sh t i reads status) :
    sh.writeSet cfg t = (cfg.task.writesOf status).map Prod.fst := by
  simp only [Shared.writeSet, h.outputs, writesOf_recorded]

lemma Settled.below {reads : List (ReadDescriptor K)} {status : ExecutionStatus O E}
    (h : Settled cfg hist sh t i reads status) : hist.Below t (i + 1) := by
  intro k j v hj
  rcases h.written.fresh k j v hj with hlt | ⟨heq, -⟩
  · omega
  · omega

/-- A settled transaction is ready to be marked. -/
lemma Settled.estimated {reads : List (ReadDescriptor K)} {status : ExecutionStatus O E}
    (h : Settled cfg hist sh t i reads status) : Estimated cfg sh t (sh.writeSet cfg t) := by
  refine ⟨fun k hk => ?_, fun k c hc => ?_⟩
  · obtain ⟨⟨k, v⟩, hkv, rfl⟩ := List.mem_map.mp (h.writeSet ▸ hk)
    exact ⟨_, h.written.done k v hkv, Or.inl hk⟩
  · rcases h.written.only k c hc with hk | hk
    · rwa [h.writeSet]
    · cases hk

/-! ### Who edits the versions of a transaction -/

namespace Pc

/-- The transaction whose cells, reads or output the worker is changing. -/
def editing : Pc K V O E → Option ℕ
  | .applyWrites idx _ _ _ _ _ _ | .writeFailed idx _ | .deletes idx _ _ _ _ _
  | .recordInput idx _ _ _ _ | .recordOutput idx _ _ _ | .setExecuted idx _ _
  | .markEstimates idx _ _ | .setAborted idx _ => some idx
  | _ => none

/-- The worker is about to write a cell. -/
def writing : Pc K V O E → Bool
  | .applyWrites _ _ _ _ (_ :: _) _ _ => true
  | _ => false

lemma mem_claims_of_editing {p : Pc K V O E} (h : p.editing = some t) : t ∈ p.claims := by
  cases p <;> cases h <;> simp [claims, running, aborting, drained]

end Pc

/-- What a worker knows of the versions of its transaction. -/
def Holds (cfg : Setup T K V O E) (hist : Values K V) (sh : Shared K V O E) :
    Pc K V O E → Prop
  | .body t _ reads dependency rest => dependency = false → Traced cfg hist t reads rest
  | .readDep t _ reads _ key next => Traced cfg hist t reads (.read key next)
  | .prevWrites t _ reads status => Traced cfg hist t reads (.ret status)
  | .applyWrites t i reads status writes prev _ =>
      Traced cfg hist t reads (.ret status) ∧ ∃ written,
        cfg.task.writesOf status = written ++ writes ∧ Written hist sh t i written prev
  | .writeFailed t _ => ∃ reads status, Traced cfg hist t reads (.ret status) ∧
      ¬((cfg.task.writesOf status).map Prod.fst).Nodup
  | .deletes t i reads status prev _ =>
      Traced cfg hist t reads (.ret status) ∧ Written hist sh t i (cfg.task.writesOf status) prev
  | .recordInput t i reads status _ =>
      Traced cfg hist t reads (.ret status) ∧ Written hist sh t i (cfg.task.writesOf status) []
  | .recordOutput t i status _ => ∃ reads, sh.inputs t = some reads ∧
      Traced cfg hist t reads (.ret status) ∧ Written hist sh t i (cfg.task.writesOf status) []
  | .setExecuted t i _ => ∃ reads status, Settled cfg hist sh t i reads status
  | .markEstimates t i rest => Estimated cfg sh t rest ∧ hist.Below t (i + 1)
  | .setAborted t i => Estimated cfg sh t [] ∧ hist.Below t (i + 1)
  | _ => True

lemma holds_resume (k : Resume) : Holds cfg hist sh (k.pc : Pc K V O E) :=
  k.pc_induction (P := Holds cfg hist sh) trivial trivial trivial

/-- What a worker knows survives a change elsewhere. -/
lemma Holds.congr {p : Pc K V O E} (h : Holds cfg hist sh p) (hle : hist.Le hist')
    (hsame : ∀ t, p.editing = some t → SameAt sh sh' t ∧ hist.SameAt hist' t) :
    Holds cfg hist' sh' p := by
  cases p with
  | body t i reads dependency rest => exact fun hdep => (h hdep).mono hle
  | readDep t i reads dep key next => exact Traced.mono hle h
  | prevWrites t i reads status => exact Traced.mono hle h
  | applyWrites t i reads status writes prev outside =>
      obtain ⟨hsh, hhist⟩ := hsame t rfl
      obtain ⟨htraced, written, heq, hwritten⟩ := h
      exact ⟨htraced.mono hle, written, heq, hwritten.congr hsh hhist⟩
  | writeFailed t i =>
      obtain ⟨reads, status, htraced, htwice⟩ := h
      exact ⟨reads, status, htraced.mono hle, htwice⟩
  | deletes t i reads status prev outside =>
      obtain ⟨hsh, hhist⟩ := hsame t rfl
      exact ⟨h.1.mono hle, h.2.congr hsh hhist⟩
  | recordInput t i reads status outside =>
      obtain ⟨hsh, hhist⟩ := hsame t rfl
      exact ⟨h.1.mono hle, h.2.congr hsh hhist⟩
  | recordOutput t i status outside =>
      obtain ⟨hsh, hhist⟩ := hsame t rfl
      obtain ⟨reads, hreads, htraced, hwritten⟩ := h
      exact ⟨reads, hsh.inputs.trans hreads, htraced.mono hle, hwritten.congr hsh hhist⟩
  | setExecuted t i outside =>
      obtain ⟨hsh, hhist⟩ := hsame t rfl
      obtain ⟨reads, status, hsettled⟩ := h
      exact ⟨reads, status, hsettled.congr hsh hle hhist⟩
  | markEstimates t i rest =>
      obtain ⟨hsh, hhist⟩ := hsame t rfl
      exact ⟨h.1.congr hsh, h.2.congr hhist⟩
  | setAborted t i =>
      obtain ⟨hsh, hhist⟩ := hsame t rfl
      exact ⟨h.1.congr hsh, h.2.congr hhist⟩
  | _ => trivial

/-! ### One step -/

variable [DecidableEq K] {p p' : Pc K V O E} {mv : Move K V O E}

/-- A step changes the versions of the transaction it edits, and of no other. -/
lemma Step.sameAt (h : Step cfg sh p mv p') (hne : p.editing ≠ some t) :
    SameAt sh (mv.perform sh) t := by
  cases mv with
  | setData data =>
      refine ⟨fun k => ?_, rfl, rfl⟩
      change data.cell k t = sh.data.cell k t
      cases h with
      | applyWrite hwrite | writeFailed hwrite =>
          rw [MVHashMap.cell_write hwrite, if_neg]
          rintro ⟨-, rfl⟩
          exact hne rfl
      | delete hk hdelete =>
          rw [MVHashMap.cell_delete hdelete, if_neg]
          rintro ⟨-, rfl⟩
          exact hne rfl
      | markEstimate hk hmark =>
          obtain ⟨c, -, hcells⟩ := MVHashMap.cell_markEstimate hmark
          rw [hcells, if_neg]
          rintro ⟨-, rfl⟩
          exact hne rfl
  | setInput t' reads =>
      refine ⟨fun _ => rfl, ?_, rfl⟩
      cases h
      exact Function.update_of_ne (fun heq => hne (by rw [heq]; rfl)) _ _
  | setOutput t' status =>
      refine ⟨fun _ => rfl, rfl, ?_⟩
      cases h
      exact Function.update_of_ne (fun heq => hne (by rw [heq]; rfl)) _ _
  | _ => exact ⟨fun _ => rfl, rfl, rfl⟩

/-- A transaction at rest stays at rest through a step that does not edit it. -/
lemma Step.atRest (h : Step cfg sh p mv p') (hrest : AtRest cfg hist sh t)
    (hne : p.editing ≠ some t) (hle : hist.Le hist') (hhist : hist.SameAt hist' t) :
    AtRest cfg hist' (mv.perform sh) t := by
  have hsame := h.sameAt hne
  rcases h.transition t with hstatus | ⟨st, st', hold, hnew, htransition⟩
  · exact hrest.congr hstatus hsame hle hhist
  · rw [AtRest, hold] at hrest
    rw [AtRest, hnew]
    cases htransition with
    | incarnate hp ht => exact ⟨hrest.1.congr hsame, hrest.2.congr hhist⟩
    | resume => exact ⟨hrest.1.congr hsame, (hrest.2.congr hhist).mono (Nat.le_succ _)⟩
    | tryAbort =>
        obtain ⟨reads, status, hset⟩ := hrest
        exact ⟨reads, status, hset.congr hsame hle hhist⟩
    | setExecuted | setAborted => exact absurd rfl hne

/-! ### The operations on the cells -/

/-- The values with one more of one version. -/
def Values.record (hist : Values K V) (k : K) (t i : ℕ) (v : V) : Values K V :=
  fun k' t' i' v' => (k' = k ∧ t' = t ∧ i' = i ∧ v' = v) ∨ hist k' t' i' v'

omit [DecidableEq K] in
lemma Values.le_record (hist : Values K V) (k : K) (t i : ℕ) (v : V) :
    hist.Le (hist.record k t i v) := fun _ _ _ _ => Or.inr

omit [DecidableEq K] in
lemma Values.sameAt_record {k : K} {v : V} {t' : ℕ} (hne : t' ≠ t) :
    hist.SameAt (hist.record k t i v) t' := by
  refine fun k' i' v' => ⟨?_, Or.inr⟩
  rintro (⟨-, heq, -⟩ | h)
  · exact absurd heq hne
  · exact h

omit [DecidableEq K] in
lemma Values.Single.record {k : K} {v : V} (h : hist.Single) (hnew : ∀ v, ¬hist k t i v) :
    (hist.record k t i v).Single := by
  rintro k' t' i' v₁ v₂ (⟨rfl, rfl, rfl, rfl⟩ | h₁) (⟨hk, ht, hi, hv⟩ | h₂)
  · exact hv.symm
  · exact absurd h₂ (hnew v₂)
  · subst hk ht hi
    exact absurd h₁ (hnew v₁)
  · exact h k' t' i' v₁ v₂ h₁ h₂

section Others

variable {written : List (K × V)} {prev : List K} {k k' : K} {data : MVHashMap K V}
  (hother : ∀ k', k' ≠ k → data.cell k' t = sh.data.cell k' t)

include hother

/-- What the incarnation has still to overwrite is where it was, apart from the
key at hand. -/
lemma Written.marked_of_other (h : Written hist sh t i written prev) (hk' : k' ∈ without k prev) :
    ∃ c, data.cell k' t = some c ∧ c.flag = .estimate := by
  obtain ⟨hk', hne⟩ := mem_without.mp hk'
  rw [hother k' hne]
  exact h.marked k' hk'

/-- The other cells of the transaction are written or still to overwrite. -/
lemma Written.only_of_other (h : Written hist sh t i written prev) (hne : k' ≠ k) {c}
    (hc : data.cell k' t = some c) : k' ∈ written.map Prod.fst ∨ k' ∈ without k prev := by
  rw [hother k' hne] at hc
  rcases h.only k' c hc with hmem | hmem
  · exact Or.inl hmem
  · exact Or.inr (mem_without.mpr ⟨hmem, hne⟩)

end Others

/-- One more write of the incarnation. -/
lemma Written.write {written : List (K × V)} {prev : List K} {k : K} {v : V}
    {data : MVHashMap K V} (h : Written hist sh t i written prev)
    (hnew : k ∉ written.map Prod.fst) (hwrite : sh.data.write k (t, i) v = (data, true)) :
    Written (hist.record k t i v) (Move.perform sh (.setData data)) t i (written ++ [(k, v)])
      (without k prev) := by
  have hcell := MVHashMap.cell_write hwrite
  have hother : ∀ k', k' ≠ k → data.cell k' t = sh.data.cell k' t := fun k' hk => by
    rw [hcell, if_neg fun h => hk h.1]
  refine ⟨fun k' v' hkv => ?_, fun k' hk' => ?_, fun k' c hc => ?_, fun k' j v' hj => ?_⟩
  · change data.cell k' t = _
    rcases List.mem_append.mp hkv with hold | hlast
    · have hne : k' ≠ k := by
        rintro rfl
        exact hnew (List.mem_map.mpr ⟨(k', v'), hold, rfl⟩)
      rw [hother k' hne]
      exact h.done k' v' hold
    · obtain ⟨rfl, rfl⟩ := Prod.mk.inj (List.mem_singleton.mp hlast)
      rw [hcell, if_pos ⟨rfl, rfl⟩]
  · exact h.marked_of_other hother hk'
  · change data.cell k' t = some c at hc
    rw [List.map_append, List.mem_append]
    by_cases hne : k' = k
    · exact Or.inl (Or.inr (by simp [hne]))
    · exact (h.only_of_other hother hne hc).imp_left Or.inl
  · rw [List.map_append, List.mem_append]
    rcases hj with ⟨hk, -, hi, -⟩ | hj
    · exact Or.inr ⟨hi, Or.inr (by simp [hk])⟩
    · rcases h.fresh k' j v' hj with hlt | ⟨heq, hmem⟩
      · exact Or.inl hlt
      · exact Or.inr ⟨heq, Or.inl hmem⟩

/-- Deleting a key the incarnation did not write again. -/
lemma Written.delete {written : List (K × V)} {prev : List K} {k : K} {data : MVHashMap K V}
    (h : Written hist sh t i written prev) (hk : k ∈ prev)
    (hdelete : sh.data.delete k t = some data) :
    Written hist (Move.perform sh (.setData data)) t i written (without k prev) := by
  have hcell := MVHashMap.cell_delete hdelete
  have hother : ∀ k', k' ≠ k → data.cell k' t = sh.data.cell k' t := fun k' hk => by
    rw [hcell, if_neg fun h => hk h.1]
  refine ⟨fun k' v' hkv => ?_, fun k' hk' => ?_, fun k' c hc => ?_, h.fresh⟩
  · change data.cell k' t = _
    have hdone := h.done k' v' hkv
    have hne : k' ≠ k := by
      rintro rfl
      obtain ⟨c, hc, hflag⟩ := h.marked k' hk
      rw [hdone] at hc
      cases hc
      cases hflag
    rw [hother k' hne]
    exact hdone
  · exact h.marked_of_other hother hk'
  · change data.cell k' t = some c at hc
    by_cases hne : k' = k
    · rw [hcell, if_pos ⟨hne, rfl⟩] at hc
      cases hc
    · exact h.only_of_other hother hne hc

/-- Marking one more key. -/
lemma Estimated.mark {pending : List K} {k : K} {data : MVHashMap K V}
    (h : Estimated cfg sh t pending) (hmark : sh.data.markEstimate k t = some data) :
    Estimated cfg (Move.perform sh (.setData data)) t (without k pending) := by
  obtain ⟨c₀, hc₀, hcell⟩ := MVHashMap.cell_markEstimate hmark
  refine ⟨fun k' hk' => ?_, fun k' c hc => ?_⟩
  · change ∃ c, data.cell k' t = some c ∧ _
    rw [hcell]
    by_cases hne : k' = k
    · exact ⟨_, if_pos ⟨hne, rfl⟩, Or.inr rfl⟩
    · rw [if_neg fun h => hne h.1]
      obtain ⟨c, hc, hmem | hflag⟩ := h.marked k' hk'
      · exact ⟨c, hc, Or.inl (mem_without.mpr ⟨hmem, hne⟩)⟩
      · exact ⟨c, hc, Or.inr hflag⟩
  · change data.cell k' t = some c at hc
    rw [hcell] at hc
    by_cases hne : k' = k
    · subst hne
      exact h.only k' c₀ hc₀
    · rw [if_neg fun h => hne h.1] at hc
      exact h.only k' c hc

/-! ### The invariant -/

variable {m : ℕ} {s : LeapState m K V O E} {w : Fin m}

/-- The versions agree with the values written, with what the workers know and
with the statuses; and none has two values before a write has failed. -/
structure Versions (cfg : Setup T K V O E) (hist : Values K V) (s : LeapState m K V O E) :
    Prop where
  cells : ∀ k t c, s.shared.data.cell k t = some c → hist k t c.incarnation c.data
  single : (∀ w t i, s.pc w ≠ .writeFailed t i) → hist.Single
  holds : ∀ w, Holds cfg hist s.shared (s.pc w)
  rest : ∀ t, (∀ w, (s.pc w).editing ≠ some t) → AtRest cfg hist s.shared t

namespace Versions

omit [DecidableEq K] in
/-- Nobody edits the versions of a transaction that another worker claims. -/
lemma atRest_of_claimed (hv : Versions cfg hist s) (hs : Waiting cfg s)
    (hclaim : t ∈ (s.pc w).claims) (hself : (s.pc w).editing ≠ some t) :
    AtRest cfg hist s.shared t := by
  refine hv.rest t fun w' hedit => ?_
  by_cases hne : w' = w
  · exact hself (hne ▸ hedit)
  · exact (hs.claim_unique hclaim).2.2 w' hne (Pc.mem_claims_of_editing hedit)

omit [DecidableEq K] in
/-- A transaction about to write has only estimates. -/
lemma estimated_of_running (hv : Versions cfg hist s) (hs : Waiting cfg s)
    (hrun : (s.pc w).running = some (t, i)) (hself : (s.pc w).editing ≠ some t) :
    Estimated cfg s.shared t [] ∧ hist.Below t i := by
  have hrest := hv.atRest_of_claimed hs (Pc.mem_claims.mpr (Or.inl ⟨i, hrun⟩)) hself
  rw [AtRest, (hs.fits w).running t i hrun] at hrest
  exact hrest

omit [DecidableEq K] in
/-- A transaction about to be marked is settled. -/
lemma settled_of_aborting (hv : Versions cfg hist s) (hs : Waiting cfg s)
    (habort : (s.pc w).aborting = some (t, i)) (hself : (s.pc w).editing ≠ some t) :
    ∃ reads status, Settled cfg hist s.shared t i reads status := by
  have hrest := hv.atRest_of_claimed hs (Pc.mem_claims.mpr (Or.inr (Or.inl ⟨i, habort⟩))) hself
  rw [AtRest, (hs.fits w).aborting t i habort] at hrest
  exact hrest

/-- What the worker knows after a step that writes no cell. -/
lemma holds_self (hv : Versions cfg hist s) (hs : Waiting cfg s)
    (h : Step cfg s.shared (s.pc w) mv p') (hw : (s.pc w).writing = false) :
    Holds cfg hist (mv.perform s.shared) p' := by
  have hholds := hv.holds w
  have hestimated {t i : ℕ} := hv.estimated_of_running hs (w := w) (t := t) (i := i)
  have hsettled {t i : ℕ} := hv.settled_of_aborting hs (w := w) (t := t) (i := i)
  generalize s.pc w = p at h hw hholds hestimated hsettled
  -- Steps of a body extend its trace; then the cells follow the writes one at a time.
  cases h with
  | readSetNone hblock => exact fun _ => ⟨_, hblock, .start⟩
  | precheckEnd hblock => exact fun _ => ⟨_, hblock, .start⟩
  | bodyVersion hread =>
      intro hdep
      obtain ⟨txn, htxn, htrace⟩ := hholds hdep
      obtain ⟨-, hcell, -⟩ := MVHashMap.read_eq_ok_iff.mp hread
      exact ⟨txn, htxn, .version htrace (hv.cells _ _ _ hcell)⟩
  | bodyStorage hread =>
      intro hdep
      obtain ⟨txn, htxn, htrace⟩ := hholds hdep
      exact ⟨txn, htxn, .storage htrace⟩
  | bodyError => exact fun hdep => by cases hdep
  | bodyEstimate hread => exact hholds rfl
  | bodyEnd => exact hholds rfl
  | readExecuted => exact fun _ => hholds
  | readPush => exact fun hdep => by cases hdep
  | prevWrites =>
      -- The cells of the last incarnation are all estimates when the next begins to write.
      obtain ⟨hest, hbelow⟩ := hestimated rfl (by simp [Pc.editing])
      refine ⟨hholds, [], rfl, fun k v hkv => (by cases hkv), fun k hk => ?_, fun k c hc => ?_,
        fun k j v hj => Or.inl (hbelow k j v hj)⟩
      · obtain ⟨c, hc, hmem | hflag⟩ := hest.marked k hk
        · cases hmem
        · exact ⟨c, hc, hflag⟩
      · exact Or.inr (hest.only k c hc)
  | applyWrite hwrite => cases hw
  | writeFailed hwrite => cases hw
  | applied =>
      obtain ⟨htraced, written, heq, hwritten⟩ := hholds
      rw [List.append_nil] at heq
      exact ⟨htraced, heq ▸ hwritten⟩
  | appliedStop hstatus =>
      obtain ⟨htraced, written, heq, hwritten⟩ := hholds
      rw [List.append_nil] at heq
      exact ⟨htraced, heq ▸ hwritten.congr ⟨fun _ => rfl, rfl, rfl⟩ (.refl hist _)⟩
  | delete hk hdelete => exact ⟨hholds.1, hholds.2.delete hk hdelete⟩
  | deleted => exact hholds
  | recordInput =>
      refine ⟨_, Function.update_self .., hholds.1, ?_⟩
      exact ⟨hholds.2.done, hholds.2.marked, hholds.2.only, hholds.2.fresh⟩
  | recordOutput =>
      obtain ⟨reads, hreads, htraced, hwritten⟩ := hholds
      exact ⟨reads, _, hreads, Function.update_self .., htraced,
        hwritten.done, hwritten.marked, hwritten.only, hwritten.fresh⟩
  | writeSet =>
      obtain ⟨reads, status, hset⟩ := hsettled rfl (by simp [Pc.editing])
      exact ⟨hset.estimated, hset.below⟩
  | markEstimate hk hmark => exact ⟨hholds.1.mark hmark, hholds.2⟩
  | marked => exact ⟨hholds.1.congr ⟨fun _ => rfl, rfl, rfl⟩, hholds.2⟩
  | schedule | doneTasksNo | doneAgainNo | doneStore | dropGuard hactive => exact holds_resume _
  | _ => trivial

/-- The cells agree with the history after a step that writes none. -/
lemma cells_self (hv : Versions cfg hist s) (h : Step cfg s.shared (s.pc w) mv p')
    (hw : (s.pc w).writing = false) (k : K) (t : ℕ) (c : WriteCell V)
    (hc : (mv.perform s.shared).data.cell k t = some c) :
    hist k t c.incarnation c.data := by
  generalize s.pc w = p at h hw
  cases mv with
  | setData data =>
      change data.cell k t = some c at hc
      cases h with
      | applyWrite hwrite => cases hw
      | writeFailed hwrite => cases hw
      | delete hk hdelete =>
          rw [MVHashMap.cell_delete hdelete] at hc
          split at hc
          · cases hc
          · exact hv.cells k t c hc
      | markEstimate hk hmark =>
          obtain ⟨c₀, hc₀, hcell⟩ := MVHashMap.cell_markEstimate hmark
          rw [hcell] at hc
          split at hc
          · rename_i heq
            obtain ⟨rfl, rfl⟩ := heq
            cases hc
            exact hv.cells _ _ c₀ hc₀
          · exact hv.cells k t c hc
  | _ => exact hv.cells k t c hc

/-- A worker that stops editing a transaction leaves it at rest. -/
lemma atRest_exit (hholds : Holds cfg hist s.shared (s.pc w))
    (h : Step cfg s.shared (s.pc w) mv p') (hold : (s.pc w).editing = some t)
    (hnew : p'.editing ≠ some t) : AtRest cfg hist (mv.perform s.shared) t := by
  generalize s.pc w = p at h hholds hold
  have hperform {t : ℕ} {st : TransactionStatus} :
      (Move.perform s.shared (.setStatus t st)).txnStatus t = st := Function.update_self ..
  cases h with
  | setExecuted hstatus =>
      cases hold
      obtain ⟨reads, status, hset⟩ := hholds
      rw [AtRest, hperform]
      exact ⟨reads, status, hset.congr ⟨fun _ => rfl, rfl, rfl⟩ (.refl hist) (.refl hist _)⟩
  | setAborted hstatus =>
      cases hold
      rw [AtRest, hperform]
      exact ⟨hholds.1.congr ⟨fun _ => rfl, rfl, rfl⟩, hholds.2⟩
  | writeFailed hwrite =>
      cases hold
      exact absurd rfl hnew
  | _ => first | exact absurd hold hnew | cases hold

/-- If no write has failed after a step, none had before. -/
lemma firm_of_move (h : Step cfg s.shared (s.pc w) mv p') {sh' : Shared K V O E}
    (hfirm : ∀ w' t i, (s.move w sh' p').pc w' ≠ .writeFailed t i) (w' : Fin m) (t i : ℕ) :
    s.pc w' ≠ .writeFailed t i := by
  by_cases hne : w' = w
  · intro hpc
    rw [← hne, hpc] at h
    cases h
  · have hother := hfirm w' t i
    rwa [Global.pc_move_of_ne s hne] at hother

/-- The invariant after a step, put together from what the worker has done to
the versions it edits: everybody else's are as they were. -/
lemma assemble (hv : Versions cfg hist s) (hs : Waiting cfg s)
    (h : Step cfg s.shared (s.pc w) mv p') (hle : hist.Le hist')
    (hsame : ∀ t, (s.pc w).editing ≠ some t → hist.SameAt hist' t)
    (hcells : ∀ k t c, (mv.perform s.shared).data.cell k t = some c →
      hist' k t c.incarnation c.data)
    (hsingle : hist.Single → (∀ t i, p' ≠ .writeFailed t i) → hist'.Single)
    (hholds : Holds cfg hist' (mv.perform s.shared) p')
    (hexit : ∀ t, (s.pc w).editing = some t → p'.editing ≠ some t →
      AtRest cfg hist' (mv.perform s.shared) t) :
    Versions cfg hist' (s.move w (mv.perform s.shared) p') where
  cells := hcells
  single := by
    intro hfirm
    refine hsingle (hv.single (firm_of_move h hfirm)) fun t i => ?_
    have hself := hfirm w t i
    rwa [Global.pc_move_self] at hself
  holds := by
    refine Global.forall_pc_move hholds fun w' hne => ?_
    refine (hv.holds w').congr hle fun t hedit => ?_
    have hother : (s.pc w).editing ≠ some t := fun hw =>
      (hs.claim_unique (Pc.mem_claims_of_editing hedit)).2.2 w hne.symm
        (Pc.mem_claims_of_editing hw)
    exact ⟨h.sameAt hother, hsame t hother⟩
  rest := by
    intro t hnone
    have hself : p'.editing ≠ some t := by
      have hw := hnone w
      rwa [Global.pc_move_self] at hw
    by_cases hedit : (s.pc w).editing = some t
    · exact hexit t hedit hself
    · refine h.atRest (hv.rest t fun w' => ?_) hedit hle (hsame t hedit)
      by_cases hne : w' = w
      · rw [hne]
        exact hedit
      · have hw' := hnone w'
        rwa [Global.pc_move_of_ne s hne] at hw'

omit [DecidableEq K] in
lemma exists_of_writing {p : Pc K V O E} (h : p.writing = true) :
    ∃ t i reads status k v writes prev outside,
      p = .applyWrites t i reads status ((k, v) :: writes) prev outside := by
  cases p with
  | applyWrites t i reads status writes prev outside =>
      cases writes with
      | nil => cases h
      | cons kv writes => exact ⟨t, i, reads, status, kv.1, kv.2, writes, prev, outside, rfl⟩
  | _ => cases h

/-- The cells agree with the values once the one written has been recorded. -/
lemma cells_write (hv : Versions cfg hist s) {k : K} {v : V} {data : MVHashMap K V} {ok : Bool}
    (hwrite : s.shared.data.write k (t, i) v = (data, ok)) (k' : K) (t' : ℕ) (c : WriteCell V)
    (hc : (Move.perform s.shared (.setData data)).data.cell k' t' = some c) :
    hist.record k t i v k' t' c.incarnation c.data := by
  change data.cell k' t' = some c at hc
  rw [MVHashMap.cell_write hwrite] at hc
  split at hc
  · rename_i hkt
    cases hc
    exact Or.inl ⟨hkt.1, hkt.2, rfl, rfl⟩
  · exact Or.inr (hv.cells k' t' c hc)

section Write

variable {reads : List (ReadDescriptor K)} {status : ExecutionStatus O E} {k : K} {v : V}
  {writes : List (K × V)} {prev : List K} {outside : Bool} {data : MVHashMap K V}
  (hpc : s.pc w = .applyWrites t i reads status ((k, v) :: writes) prev outside)

include hpc

/-- A write that meets its assertion adds its version to the values. -/
lemma step_write (hv : Versions cfg hist s) (hs : Waiting cfg s)
    (hwrite : s.shared.data.write k (t, i) v = (data, true)) :
    Versions cfg (hist.record k t i v) (s.move w (Move.perform s.shared (.setData data))
      (.applyWrites t i reads status writes (without k prev) (outside || decide (k ∉ prev)))) := by
  obtain ⟨htraced, written, heq, hwritten⟩ : Holds cfg hist s.shared
    (.applyWrites t i reads status ((k, v) :: writes) prev outside) := hpc ▸ hv.holds w
  have hedit : (s.pc w).editing = some t := by rw [hpc]; rfl
  -- the assertion of the write excludes a cell of the same incarnation, so the version is new
  have hnew : k ∉ written.map Prod.fst := by
    intro hmem
    obtain ⟨⟨k, v'⟩, hkv, rfl⟩ := List.mem_map.mp hmem
    have hlt := MVHashMap.write_snd_iff.mp (congrArg Prod.snd hwrite) _ (hwritten.done k v' hkv)
    exact absurd hlt (lt_irrefl i)
  have hnone : ∀ v', ¬hist k t i v' := by
    intro v' hv'
    rcases hwritten.fresh k i v' hv' with hlt | ⟨-, hmem⟩
    · omega
    · exact hnew hmem
  have hle := hist.le_record k t i v
  refine hv.assemble hs (hpc ▸ .applyWrite hwrite) hle ?_ (hv.cells_write hwrite)
    (fun hsingle _ => hsingle.record hnone)
    ⟨htraced.mono hle, _, ?_, hwritten.write hnew hwrite⟩ ?_
  · exact fun t' hne => Values.sameAt_record fun heq => hne (by rw [hedit, heq])
  · rw [heq, List.append_assoc]
    rfl
  · intro t' hold hexit
    rw [hedit] at hold
    exact absurd hold hexit

/-- A write whose assertion fails is the second one of the incarnation to its
key: every other cell of the transaction is of an earlier incarnation. -/
lemma step_writeFailed (hv : Versions cfg hist s) (hs : Waiting cfg s)
    (hwrite : s.shared.data.write k (t, i) v = (data, false)) :
    Versions cfg (hist.record k t i v) (s.move w (Move.perform s.shared (.setData data))
      (.writeFailed t i)) := by
  obtain ⟨htraced, written, heq, hwritten⟩ : Holds cfg hist s.shared
    (.applyWrites t i reads status ((k, v) :: writes) prev outside) := hpc ▸ hv.holds w
  have hedit : (s.pc w).editing = some t := by rw [hpc]; rfl
  have htwice : k ∈ written.map Prod.fst := by
    by_contra hnew
    have hlt : ∀ c, s.shared.data.cell k t = some c → c.incarnation < i := fun c hc =>
      (hwritten.fresh k _ _ (hv.cells k t c hc)).resolve_right fun h => hnew h.2
    have hok : (s.shared.data.write k (t, i) v).2 = true := MVHashMap.write_snd_iff.mpr hlt
    rw [hwrite] at hok
    cases hok
  have hnodup : ¬((cfg.task.writesOf status).map Prod.fst).Nodup := by
    rw [heq, List.map_append, List.map_cons, List.nodup_append]
    exact fun h => h.2.2 k htwice k List.mem_cons_self rfl
  have hle := hist.le_record k t i v
  refine hv.assemble hs (hpc ▸ .writeFailed hwrite) hle ?_ (hv.cells_write hwrite)
    (fun _ hfirm => absurd rfl (hfirm t i)) ⟨reads, status, htraced.mono hle, hnodup⟩ ?_
  · exact fun t' hne => Values.sameAt_record fun heq => hne (by rw [hedit, heq])
  · intro t' hold hexit
    rw [hedit] at hold
    exact absurd hold hexit

end Write

/-- **The invariant is kept by every step**, for values that have grown by the
one written, if any. -/
theorem step (hv : Versions cfg hist s) (hs : Waiting cfg s)
    (h : Step cfg s.shared (s.pc w) mv p') :
    ∃ hist', Versions cfg hist' (s.move w (mv.perform s.shared) p') := by
  by_cases hw : (s.pc w).writing = true
  · obtain ⟨t, i, reads, status, k, v, writes, prev, outside, hpc⟩ := exists_of_writing hw
    rw [hpc] at h
    cases h with
    | applyWrite hwrite => exact ⟨_, step_write hpc hv hs hwrite⟩
    | writeFailed hwrite => exact ⟨_, step_writeFailed hpc hv hs hwrite⟩
  · have hw : (s.pc w).writing = false := Bool.eq_false_iff.mpr hw
    exact ⟨hist, hv.assemble hs h (.refl hist) (fun t _ => .refl hist t) (hv.cells_self h hw)
      (fun hsingle _ => hsingle) (hv.holds_self hs h hw)
      fun t hold hexit => atRest_exit (hv.holds w) h hold hexit⟩

omit [DecidableEq K] in
lemma initial (cfg : Setup T K V O E) (m : ℕ) :
    Versions cfg (fun _ _ _ _ => False) (LeapState.initial cfg m) where
  cells := fun _ _ _ hc => by simp [LeapState.initial, Shared.initial] at hc
  single := fun _ _ _ _ _ _ hv => absurd hv id
  holds := fun _ => trivial
  rest := fun _ _ => ⟨⟨fun _ hk => by simp [LeapState.initial, Shared.initial,
      Shared.writeSet] at hk, fun _ _ hc => by simp [LeapState.initial, Shared.initial] at hc⟩,
    fun _ _ _ hv => absurd hv id⟩

omit [DecidableEq K] in
lemma panic (hv : Versions cfg hist s) (w : Fin m) :
    Versions cfg hist (s.panic w (Move.dropGuard.perform s.shared)) where
  cells := hv.cells
  single := by
    simp only [Global.pc_panic]
    exact hv.single
  holds := by
    intro w'
    rw [Global.pc_panic]
    exact (hv.holds w').congr (.refl hist) fun t _ => ⟨⟨fun _ => rfl, rfl, rfl⟩, .refl hist t⟩
  rest := by
    intro t hnone
    simp only [Global.pc_panic] at hnone
    exact (hv.rest t hnone).congr rfl ⟨fun _ => rfl, rfl, rfl⟩ (.refl hist) (.refl hist t)

end Versions

/-- The versions agree with the values written after every run. -/
theorem versions_leapRun (cfg : Setup T K V O E) (acts : List (Fin m × ℕ)) :
    ∃ hist, Versions cfg hist (leapRun cfg acts) := by
  refine (leapRun_induction (I := fun s => Waiting cfg s ∧ ∃ hist, Versions cfg hist s)
    ⟨Waiting.initial cfg m, _, Versions.initial cfg m⟩ ?_ ?_ acts).2
  · rintro s w mv p' ⟨hs, hist, hv⟩ - h
    exact ⟨hs.step h, hv.step hs h⟩
  · rintro s w ⟨hs, hist, hv⟩ -
    exact ⟨hs.panic w, hist, hv.panic w⟩

end StablecoinSystem
