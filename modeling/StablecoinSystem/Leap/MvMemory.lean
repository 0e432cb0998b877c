import StablecoinSystem.Leap.Task

/-!
`mvmemory.rs`: the multi-version map.

For each key the map holds a tree from transaction indices to write cells; a
read by transaction `t` takes the cell of the highest index below `t`. A path
that was never written is told apart from a path whose tree is empty, as
`mark_estimate` and `delete` panic on the former.

`cell` looks a cell up, and the operations are specified by what they do to the
cells: `cell_write`, `cell_markEstimate`, `cell_delete`; `write_snd_iff` and the
like say when they do not panic. A read is determined
by the cells below the reader (`read_congr`), and `read_eq_ok_iff`,
`read_eq_storage_iff` say which cell answers it.
-/

namespace StablecoinSystem

/-- The flag of a write cell. -/
inductive Flag where
  | done
  | estimate
  deriving DecidableEq, Repr

/-- `WriteCell`. -/
structure WriteCell (V : Type) where
  flag : Flag
  incarnation : ℕ
  data : V
  deriving DecidableEq, Repr

/-- `MVHashMap`: a tree of write cells for every path that exists. -/
def MVHashMap (K V : Type) : Type := K → Option (ℕ → Option (WriteCell V))

/-- The entry of the highest index below the bound, `tree.range(0..bound).next_back()`. -/
def lastBelow {α : Type} (tree : ℕ → Option α) : ℕ → Option (ℕ × α)
  | 0 => none
  | bound + 1 =>
      match tree bound with
      | some a => some (bound, a)
      | none => lastBelow tree bound

lemma lastBelow_eq_some_iff {α : Type} {tree : ℕ → Option α} {bound idx : ℕ} {a : α} :
    lastBelow tree bound = some (idx, a) ↔
      idx < bound ∧ tree idx = some a ∧ ∀ j, idx < j → j < bound → tree j = none := by
  induction bound with
  | zero => simp [lastBelow]
  | succ bound ih =>
      rw [lastBelow]
      cases htree : tree bound with
      | some b =>
          constructor
          · intro h
            obtain ⟨rfl, rfl⟩ := Prod.mk.inj (Option.some.inj h)
            exact ⟨Nat.lt_succ_self _, htree, fun j hj hj' => by omega⟩
          · rintro ⟨hlt, hidx, habove⟩
            rcases Nat.lt_or_eq_of_le (Nat.lt_succ_iff.mp hlt) with h | rfl
            · rw [habove bound h (Nat.lt_succ_self _)] at htree
              cases htree
            · rw [htree] at hidx
              rw [Option.some.inj hidx]
      | none =>
          show lastBelow tree bound = some (idx, a) ↔ _
          rw [ih]
          constructor
          · rintro ⟨hlt, hidx, habove⟩
            refine ⟨by omega, hidx, fun j hj hj' => ?_⟩
            rcases Nat.lt_or_eq_of_le (Nat.lt_succ_iff.mp hj') with h | rfl
            · exact habove j hj h
            · exact htree
          · rintro ⟨hlt, hidx, habove⟩
            have hne : idx ≠ bound := by
              rintro rfl
              rw [htree] at hidx
              cases hidx
            exact ⟨by omega, hidx, fun j hj hj' => habove j hj (by omega)⟩

lemma lastBelow_eq_none_iff {α : Type} {tree : ℕ → Option α} {bound : ℕ} :
    lastBelow tree bound = none ↔ ∀ j < bound, tree j = none := by
  induction bound with
  | zero => simp [lastBelow]
  | succ bound ih =>
      rw [lastBelow]
      cases htree : tree bound with
      | some b =>
          constructor
          · intro h
            cases h
          · intro h
            rw [h bound (Nat.lt_succ_self _)] at htree
            cases htree
      | none =>
          show lastBelow tree bound = none ↔ _
          rw [ih]
          constructor
          · intro h j hj
            rcases Nat.lt_or_eq_of_le (Nat.lt_succ_iff.mp hj) with h' | rfl
            · exact h j h'
            · exact htree
          · intro h j hj
            exact h j (by omega)

namespace MVHashMap

variable {K V : Type}

/-- `MVHashMap::new`. -/
def new : MVHashMap K V := fun _ => none

/-- The cell of a transaction at a path. -/
def cell (m : MVHashMap K V) (key : K) (txnIdx : ℕ) : Option (WriteCell V) :=
  (m key).bind fun tree => tree txnIdx

@[simp] lemma cell_new (key : K) (txnIdx : ℕ) : (new : MVHashMap K V).cell key txnIdx = none := rfl

/-- `MVHashMap::read`: the version and value of the last write below `txn_idx`,
or the error `Some(dep)` of an estimate, or `None` for storage. -/
def read (m : MVHashMap K V) (key : K) (txnIdx : ℕ) : Except (Option ℕ) ((ℕ × ℕ) × V) :=
  match m key with
  | none => .error none
  | some tree =>
      match lastBelow tree txnIdx with
      | none => .error none
      | some (idx, cell) =>
          match cell.flag with
          | .estimate => .error (some idx)
          | .done => .ok ((idx, cell.incarnation), cell.data)

variable [DecidableEq K]

/-- The map with the tree of one path replaced. -/
def setPath (m : MVHashMap K V) (key : K) (tree : ℕ → Option (WriteCell V)) : MVHashMap K V :=
  fun key' => if key' = key then some tree else m key'

/-- `MVHashMap::write`: the cell is inserted, and then it is asserted that the
cell it replaces, if any, is of an earlier incarnation. -/
def write (m : MVHashMap K V) (key : K) (version : ℕ × ℕ) (data : V) : MVHashMap K V × Bool :=
  let tree := (m key).getD fun _ => none
  let written := Function.update tree version.1 (some ⟨.done, version.2, data⟩)
  (m.setPath key written,
    match tree version.1 with
    | none => true
    | some prev => prev.incarnation < version.2)

/-- `MVHashMap::mark_estimate`; `none` if the path or the entry does not exist. -/
def markEstimate (m : MVHashMap K V) (key : K) (txnIdx : ℕ) : Option (MVHashMap K V) :=
  match m key with
  | none => none
  | some tree =>
      match tree txnIdx with
      | none => none
      | some cell =>
          some (m.setPath key (Function.update tree txnIdx (some { cell with flag := .estimate })))

/-- `MVHashMap::delete`; `none` if the path does not exist. -/
def delete (m : MVHashMap K V) (key : K) (txnIdx : ℕ) : Option (MVHashMap K V) :=
  match m key with
  | none => none
  | some tree => some (m.setPath key (Function.update tree txnIdx none))

/-! ### What the operations do to the cells -/

lemma cell_setPath (m : MVHashMap K V) (key key' : K) (tree : ℕ → Option (WriteCell V)) (j : ℕ) :
    (m.setPath key tree).cell key' j = if key' = key then tree j else m.cell key' j := by
  rw [cell, setPath]
  split
  · rfl
  · rfl

omit [DecidableEq K] in
lemma getD_eq_cell (m : MVHashMap K V) (key : K) (j : ℕ) :
    ((m key).getD fun _ => none) j = m.cell key j := by
  rw [cell]
  cases m key with
  | none => rfl
  | some tree => rfl

/-- A write sets the transaction's cell alone. -/
lemma cell_write {m m' : MVHashMap K V} {key : K} {idx inc : ℕ} {data : V} {ok : Bool}
    (h : m.write key (idx, inc) data = (m', ok)) (key' : K) (j : ℕ) :
    m'.cell key' j = if key' = key ∧ j = idx then some ⟨.done, inc, data⟩ else m.cell key' j := by
  obtain rfl : (m.write key (idx, inc) data).1 = m' := congrArg Prod.fst h
  rw [write, cell_setPath]
  by_cases hk : key' = key
  · subst hk
    by_cases hj : j = idx
    · simp [hj]
    · simp [hj, getD_eq_cell]
  · simp [hk]

/-- Marking needs the transaction's cell and changes its flag alone. -/
lemma cell_markEstimate {m m' : MVHashMap K V} {key : K} {idx : ℕ}
    (h : m.markEstimate key idx = some m') :
    ∃ c, m.cell key idx = some c ∧ ∀ key' j, m'.cell key' j =
      if key' = key ∧ j = idx then some { c with flag := .estimate } else m.cell key' j := by
  rw [markEstimate] at h
  split at h
  · cases h
  rename_i tree htree
  split at h
  · cases h
  rename_i c hc
  have hcell : m.cell key idx = some c := by rw [cell, htree]; exact hc
  refine ⟨c, hcell, fun key' j => ?_⟩
  rw [← Option.some.inj h, cell_setPath]
  by_cases hk : key' = key
  · subst hk
    by_cases hj : j = idx
    · simp [hj]
    · simp [hj, cell, htree]
  · simp [hk]

/-- Deleting needs the path and clears the transaction's cell there. -/
lemma cell_delete {m m' : MVHashMap K V} {key : K} {idx : ℕ} (h : m.delete key idx = some m')
    (key' : K) (j : ℕ) :
    m'.cell key' j = if key' = key ∧ j = idx then none else m.cell key' j := by
  rw [delete] at h
  split at h
  · cases h
  rename_i tree htree
  rw [← Option.some.inj h, cell_setPath]
  by_cases hk : key' = key
  · subst hk
    by_cases hj : j = idx
    · simp [hj]
    · simp [hj, cell, htree]
  · simp [hk]

/-! ### When the operations go through -/

omit [DecidableEq K] in
lemma exists_tree_of_cell {m : MVHashMap K V} {key : K} {idx : ℕ} {c : WriteCell V}
    (h : m.cell key idx = some c) : ∃ tree, m key = some tree ∧ tree idx = some c :=
  Option.bind_eq_some_iff.mp h

/-- A write meets its assertion over cells of earlier incarnations. -/
lemma write_snd_iff {m : MVHashMap K V} {key : K} {idx inc : ℕ} {data : V} :
    (m.write key (idx, inc) data).2 = true ↔
      ∀ prev, m.cell key idx = some prev → prev.incarnation < inc := by
  simp only [write, getD_eq_cell]
  cases m.cell key idx with
  | none => simp
  | some prev => simp

lemma isSome_markEstimate {m : MVHashMap K V} {key : K} {idx : ℕ} {c : WriteCell V}
    (h : m.cell key idx = some c) : (m.markEstimate key idx).isSome := by
  obtain ⟨tree, htree, hc⟩ := exists_tree_of_cell h
  simp only [markEstimate, htree, hc]
  rfl

lemma isSome_delete {m : MVHashMap K V} {key : K} {idx : ℕ} {c : WriteCell V}
    (h : m.cell key idx = some c) : (m.delete key idx).isSome := by
  obtain ⟨tree, htree, -⟩ := exists_tree_of_cell h
  simp only [delete, htree]
  rfl

/-! ### Which cell answers a read -/

omit [DecidableEq K]

lemma read_eq (m : MVHashMap K V) (key : K) (idx : ℕ) : m.read key idx =
    match lastBelow (m.cell key) idx with
    | none => .error none
    | some (j, cell) =>
        match cell.flag with
        | .estimate => .error (some j)
        | .done => .ok ((j, cell.incarnation), cell.data) := by
  rw [read]
  cases hpath : m key with
  | none =>
      have hcell : lastBelow (m.cell key) idx = none :=
        lastBelow_eq_none_iff.mpr fun j _ => by rw [cell, hpath]; rfl
      rw [hcell]
  | some tree =>
      have hcell : m.cell key = tree := by
        funext j
        rw [cell, hpath]
        rfl
      rw [hcell]

/-- A read is determined by the cells below the reader. -/
lemma read_congr {m m' : MVHashMap K V} {key : K} {idx : ℕ}
    (h : ∀ j < idx, m'.cell key j = m.cell key j) : m'.read key idx = m.read key idx := by
  have hlast : lastBelow (m'.cell key) idx = lastBelow (m.cell key) idx := by
    induction idx with
    | zero => rfl
    | succ idx ih =>
        rw [lastBelow, lastBelow, h idx (Nat.lt_succ_self _),
          ih fun j hj => h j (Nat.lt_succ_of_lt hj)]
  rw [read_eq, read_eq, hlast]

/-- A read finds the highest cell below the reader, if that one is done. -/
lemma read_eq_ok_iff {m : MVHashMap K V} {key : K} {idx j inc : ℕ} {v : V} :
    m.read key idx = .ok ((j, inc), v) ↔ j < idx ∧ m.cell key j = some ⟨.done, inc, v⟩ ∧
      ∀ j', j < j' → j' < idx → m.cell key j' = none := by
  rw [read_eq]
  constructor
  · intro h
    cases hlast : lastBelow (m.cell key) idx with
    | none => rw [hlast] at h; cases h
    | some entry =>
        obtain ⟨j', ⟨flag, inc', v'⟩⟩ := entry
        rw [hlast] at h
        cases flag with
        | estimate => cases h
        | done =>
            cases h
            exact lastBelow_eq_some_iff.mp hlast
  · intro h
    rw [lastBelow_eq_some_iff.mpr h]

lemma read_eq_storage_iff {m : MVHashMap K V} {key : K} {idx : ℕ} :
    m.read key idx = .error none ↔ ∀ j < idx, m.cell key j = none := by
  rw [read_eq, ← lastBelow_eq_none_iff]
  constructor
  · intro h
    cases hlast : lastBelow (m.cell key) idx with
    | none => rfl
    | some entry =>
        obtain ⟨j', ⟨flag, inc', v'⟩⟩ := entry
        rw [hlast] at h
        cases flag <;> cases h
  · intro h
    rw [h]

/-- The index in the error of a read is below the reader. -/
lemma lt_of_read_eq_dep {m : MVHashMap K V} {key : K} {idx j : ℕ}
    (h : m.read key idx = .error (some j)) : j < idx := by
  rw [read_eq] at h
  cases hlast : lastBelow (m.cell key) idx with
  | none => rw [hlast] at h; cases h
  | some entry =>
      obtain ⟨j', ⟨flag, inc', v'⟩⟩ := entry
      rw [hlast] at h
      cases flag with
      | done => cases h
      | estimate =>
          cases h
          exact (lastBelow_eq_some_iff.mp hlast).1

end MVHashMap

end StablecoinSystem
