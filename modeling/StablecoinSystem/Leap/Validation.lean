import StablecoinSystem.Leap.Pending

/-!
Soundness of validation.

`validate_one` compares versions, never values. Take any map and any recorded
outputs such that every transaction has run to its output on the values its
recorded reads had, has its writes in the map as cells of one incarnation, and
passes the test of `validate_one`. A valid read names the version that the map
answers with, the history ties the version to one value, and the cells below a
transaction are the writes of those before it.

* `Validates.eval_trace`: so each transaction has run as it runs in order;
* `Validates.serialRun_eq`: the statuses are those of the in-order run;
* `validation_sound`: so are the outputs that `TxnLastInputOutput` holds.
-/

namespace StablecoinSystem

variable {T K V O E : Type}

section Reads

variable {data : MVHashMap K V} {k : K} {t i : ℕ} {v : V}

lemma read_succ_of_cell_none (h : data.cell k t = none) : data.read k (t + 1) = data.read k t := by
  rw [MVHashMap.read_eq, MVHashMap.read_eq, lastBelow, h]

lemma read_succ_of_cell_done (h : data.cell k t = some ⟨.done, i, v⟩) :
    data.read k (t + 1) = .ok ((t, i), v) := by
  rw [MVHashMap.read_eq, lastBelow, h]

end Reads

variable [DecidableEq K] {cfg : Setup T K V O E} {hist : History K V} {data : MVHashMap K V}
  {statuses : List (ExecutionStatus O E)}

/-- The cells of transaction `t` are its writes: at each key the last value it
wrote there, all of incarnation `i` and none of them an estimate. -/
def CellsOf (data : MVHashMap K V) (t i : ℕ) (writes : List (K × V)) : Prop :=
  ∀ k, data.cell k t = ((Store.empty.applyWrites writes k).map fun v => ⟨.done, i, v⟩)

/-- The statuses of the first transactions of the block. Each is what the
transaction does on the values its reads had, each has left the cells of its
writes, and each read is valid. -/
structure Validates (cfg : Setup T K V O E) (hist : History K V) (data : MVHashMap K V)
    (statuses : List (ExecutionStatus O E)) : Prop where
  values : ∀ k t c, data.cell k t = some c → hist k t c.incarnation = some c.data
  cells : ∀ t status, statuses[t]? = some status → ∃ i, CellsOf data t i (cfg.task.writesOf status)
  reads : ∀ t status, statuses[t]? = some status → ∃ reads,
    Traced cfg hist.values t reads (.ret status) ∧ ∀ r ∈ reads, r.isValid data t = true

namespace Validates

/-- A read finds what the last transaction below to write the key wrote, which
is the value in the store after them. -/
lemma read_eq (h : Validates cfg hist data statuses) (k : K) {t : ℕ} (ht : t ≤ statuses.length) :
    (data.read k t = .error none ∧
        cfg.task.finalStore Store.empty (statuses.take t) k = none) ∨
      ∃ j i v, data.read k t = .ok ((j, i), v) ∧
        cfg.task.finalStore Store.empty (statuses.take t) k = some v := by
  induction t with
  | zero => exact Or.inl ⟨MVHashMap.read_eq_storage_iff.mpr fun j hj => by omega, rfl⟩
  | succ t ih =>
      have hlt : t < statuses.length := ht
      obtain ⟨i, hcells⟩ := h.cells t statuses[t] (List.getElem?_eq_getElem hlt)
      have hcell := hcells k
      have htake : statuses.take (t + 1) = statuses.take t ++ [statuses[t]] := by
        rw [List.take_concat_get' statuses t hlt]
      rw [htake, ExecutorTask.finalStore_append, ExecutorTask.finalStore_cons,
        ExecutorTask.finalStore_nil, Store.applyWrites_eq_or]
      cases hwrite : Store.empty.applyWrites (cfg.task.writesOf statuses[t]) k with
      | none =>
          rw [hwrite, Option.map_none] at hcell
          rw [read_succ_of_cell_none hcell, Option.none_or]
          exact ih (by omega)
      | some v =>
          rw [hwrite, Option.map_some] at hcell
          exact Or.inr ⟨t, i, v, read_succ_of_cell_done hcell, Option.some_or⟩

/-- A run whose recorded reads are valid is the run on the store of the
transactions below. -/
lemma eval_trace (h : Validates cfg hist data statuses) {t : ℕ} (ht : t ≤ statuses.length)
    {b rest : Body K V (ExecutionStatus O E)} {reads : List (ReadDescriptor K)}
    (htrace : Trace hist.values b reads rest) (hvalid : ∀ r ∈ reads, r.isValid data t = true) :
    b.eval (cfg.task.finalStore Store.empty (statuses.take t)) =
      rest.eval (cfg.task.finalStore Store.empty (statuses.take t)) := by
  induction htrace with
  | start => rfl
  | @version reads key next j i v htrace hv ih =>
      rw [ih fun r hr => hvalid r (List.mem_append_left _ hr), Body.eval_read]
      have hlast := hvalid ⟨key, .mvHashMap j i⟩ (by simp)
      rcases isValid_iff.mp hlast with ⟨j', i', v', hkind, hread⟩ | ⟨hkind, -⟩
      · cases hkind
        -- the version found now is the one read then, and the history knows one value of it
        have hcell := (MVHashMap.read_eq_ok_iff.mp hread).2.1
        have hsame := h.values key j _ hcell
        rw [show hist key j i = some v from hv] at hsame
        rcases h.read_eq key ht with ⟨hstorage, -⟩ | ⟨j₂, i₂, v₂, hread₂, hstore⟩
        · exact absurd (hread.symm.trans hstorage) (by simp)
        · have heq := hread.symm.trans hread₂
          cases heq
          cases hsame
          rw [hstore]
      · cases hkind
  | @storage reads key next htrace ih =>
      rw [ih fun r hr => hvalid r (List.mem_append_left _ hr), Body.eval_read]
      have hlast := hvalid ⟨key, .storage⟩ (by simp)
      rcases isValid_iff.mp hlast with ⟨j', i', v', hkind, -⟩ | ⟨-, hread⟩
      · cases hkind
      · rcases h.read_eq key ht with ⟨-, hstore⟩ | ⟨j₂, i₂, v₂, hread₂, -⟩
        · rw [hstore]
        · exact absurd (hread.symm.trans hread₂) (by simp)

/-- **The statuses are those of the in-order run.** -/
theorem serialRun_eq (h : Validates cfg hist data statuses)
    (hlen : statuses.length ≤ cfg.numTxns) :
    cfg.task.serialRun Store.empty (cfg.block.take statuses.length) = some statuses := by
  refine cfg.task.serialRun_of_forall _ _ _ ?_ fun t txn status htxn hstatus => ?_
  · rw [List.length_take]
    exact (min_eq_left hlen).symm
  · have ht : t < statuses.length := (List.getElem?_eq_some_iff.mp hstatus).1
    rw [List.getElem?_take_of_lt ht] at htxn
    obtain ⟨reads, ⟨txn', htxn', htrace⟩, hvalid⟩ := h.reads t status hstatus
    rw [htxn] at htxn'
    cases htxn'
    rw [h.eval_trace (le_of_lt ht) htrace hvalid, Body.eval_ret]

end Validates

/-! ### What `TxnLastInputOutput` holds -/

/-- The record of transaction `t`: its output is what the executor produces on
the values its recorded reads had, its cells are the recorded writes, of one
incarnation, and its recorded reads pass the test of `validate_one`. -/
structure ValidRecord (cfg : Setup T K V O E) (hist : History K V) (data : MVHashMap K V)
    (inputs : ℕ → Option (List (ReadDescriptor K)))
    (outputs : ℕ → Option (ExecutionStatus O (Error E))) (t : ℕ)
    (status : ExecutionStatus O E) : Prop where
  output : outputs t = some (recorded status)
  produced : ∃ reads, inputs t = some reads ∧ Traced cfg hist.values t reads (.ret status) ∧
    ∀ r ∈ reads, r.isValid data t = true
  cells : ∃ i, CellsOf data t i (cfg.task.writesOf status)

/-- **Soundness of validation.** Let `hist` be the values that versions wrote,
and let the cells of the map hold the values of their versions. If every
transaction of the block has a valid record, the recorded outputs are those of
running the transactions one after the other. -/
theorem validation_sound (cfg : Setup T K V O E) (hist : History K V) (data : MVHashMap K V)
    (inputs : ℕ → Option (List (ReadDescriptor K)))
    (outputs : ℕ → Option (ExecutionStatus O (Error E)))
    (hvalues : ∀ k t c, data.cell k t = some c → hist k t c.incarnation = some c.data)
    (hrecords : ∀ t < cfg.numTxns, ∃ status, ValidRecord cfg hist data inputs outputs t status) :
    ∃ statuses, cfg.task.serialRun Store.empty cfg.block = some statuses ∧
      statuses.length = cfg.numTxns ∧
      ∀ t status, statuses[t]? = some status → outputs t = some (recorded status) := by
  have hall : ∀ t : Fin cfg.numTxns, ∃ status, ValidRecord cfg hist data inputs outputs t status :=
    fun t => hrecords t t.isLt
  choose status hstatus using hall
  have hlen : (List.ofFn status).length = cfg.numTxns := List.length_ofFn
  have hrecord : ∀ t st, (List.ofFn status)[t]? = some st →
      ValidRecord cfg hist data inputs outputs t st := by
    intro t st ht
    obtain ⟨hlt, rfl⟩ := List.getElem?_eq_some_iff.mp ht
    rw [List.getElem_ofFn]
    exact hstatus ⟨t, hlen ▸ hlt⟩
  have hvalid : Validates cfg hist data (List.ofFn status) := by
    refine ⟨hvalues, fun t st ht => (hrecord t st ht).cells, fun t st ht => ?_⟩
    obtain ⟨reads, -, htraced, hreads⟩ := (hrecord t st ht).produced
    exact ⟨reads, htraced, hreads⟩
  have hblock : cfg.block.take cfg.numTxns = cfg.block := List.take_length
  have hrun := hvalid.serialRun_eq (le_of_eq hlen)
  rw [hlen, hblock] at hrun
  exact ⟨List.ofFn status, hrun, hlen, fun t st ht => (hrecord t st ht).output⟩

/-- A map in which the two transactions have left incarnations 3 and 5. -/
def counterData : MVHashMap Unit ℕ := fun _ => some fun t =>
  match t with
  | 0 => some ⟨.done, 3, 1⟩
  | 1 => some ⟨.done, 5, 2⟩
  | _ => none

theorem validation_sound_counterBlock : ∃ statuses,
    counterBlock.task.serialRun Store.empty counterBlock.block = some statuses ∧
    statuses.length = 2 ∧ ∀ t status, statuses[t]? = some status →
      some (.success (t + 1)) = some (recorded status) := by
  let inputs : ℕ → Option (List (ReadDescriptor Unit)) := fun t =>
    some [⟨(), if t = 0 then .storage else .mvHashMap 0 3⟩]
  let hist : History Unit ℕ := fun _ t _ => some (t + 1)
  refine validation_sound counterBlock hist counterData inputs
    (fun t => some (.success (t + 1))) ?_ ?_
  · rintro k (_ | _ | t) c hc <;> cases hc <;> rfl
  · rintro (_ | _ | t) ht
    · refine ⟨.success 1, rfl, ⟨_, rfl, ⟨(), rfl, .storage .start⟩, ?_⟩, 3, fun _ => rfl⟩
      exact List.forall_mem_singleton.mpr rfl
    · refine ⟨.success 2, rfl, ⟨_, rfl, ⟨(), rfl, .version .start rfl⟩, ?_⟩, 5, fun _ => rfl⟩
      exact List.forall_mem_singleton.mpr rfl
    · change t + 2 < 2 at ht
      omega

end StablecoinSystem
