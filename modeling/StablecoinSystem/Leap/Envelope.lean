import StablecoinSystem.Leap.Step

/-!
Bounds on what speculation can see.

An incarnation may read any mixture of what the transactions before it have
written, and an error where it meets an estimate. An envelope is a set of values
for each transaction and key that contains whatever the transaction may be
answered: it grows along the block, and a transaction whose reads are answered
from it neither faults nor writes outside of it. Then no incarnation of any run
faults.

* `Body.Within`: however the reads are answered from a set of values, the run
  does not fault and returns something with a property;
* `Body.Dominated`: such a run stays below the run of another body against a
  store; the rules follow the structure of a body;
* `Setup.Envelope`, `no_fault_of_envelope`: the invariant of the workers.
-/

namespace StablecoinSystem

namespace Body

variable {K V α β : Type}

/-- However its reads are answered, by an error, by nothing or by a value in `A`,
the run ends without a fault, and what it returns satisfies `P`. -/
def Within (A : K → V → Prop) (P : α → Prop) : Body K V α → Prop
  | ret a => P a
  | fault => False
  | read k next => ∀ r, (∀ v, r = .ok (some v) → A k v) → (next r).Within A P

lemma Within.imp {A : K → V → Prop} {Q P : α → Prop} {b : Body K V α} (hb : b.Within A Q)
    (h : ∀ a, Q a → P a) : b.Within A P := by
  induction b with
  | ret a => exact h a hb
  | fault => exact hb
  | read k next ih => exact fun r hr => ih r (hb r hr)

lemma Within.bind {A : K → V → Prop} {Q : α → Prop} {P : β → Prop} {b : Body K V α}
    {f : α → Body K V β} (hb : b.Within A Q) (hf : ∀ a, Q a → (f a).Within A P) :
    (b >>= f).Within A P := by
  induction b with
  | ret a => exact hf a hb
  | fault => exact absurd hb id
  | read k next ih => exact fun r hr => ih r (hb r hr)

/-- Whenever `b'` ends with `a'` on the store `st`, the runs of `b` whose reads
are answered from `A` end with values below `a'`. -/
def Dominated (A : K → V → Prop) (st : Store K V) (R : α → β → Prop) (b : Body K V α)
    (b' : Body K V β) : Prop :=
  ∀ a', b'.eval st = some a' → b.Within A fun a => R a a'

namespace Dominated

variable {A : K → V → Prop} {st : Store K V} {α' β' : Type} {R : α → α' → Prop}
  {S : β → β' → Prop}

lemma ret {a : α} {a' : α'} (h : R a a') : Dominated A st R (ret a) (ret a') := by
  intro x hx
  cases hx
  exact h

/-- A result below everything. -/
lemma ret_of_forall {a : α} (h : ∀ a', R a a') (b' : Body K V α') :
    Dominated A st R (.ret a) b' :=
  fun a' _ => h a'

lemma bind {b : Body K V α} {b' : Body K V α'} {f : α → Body K V β} {f' : α' → Body K V β'}
    (hb : Dominated A st R b b')
    (hf : ∀ a a', b'.eval st = some a' → R a a' → Dominated A st S (f a) (f' a')) :
    Dominated A st S (b >>= f) (b' >>= f') := by
  intro x hx
  rw [eval_bind, Option.bind_eq_some_iff] at hx
  obtain ⟨a', ha', hx⟩ := hx
  exact (hb a' ha').bind fun a ha => hf a a' ha' ha x hx

end Dominated

end Body

/-! ### The workers stay inside an envelope -/

variable {T K V O E : Type}

/-- The worker has run into a fault of the transaction. -/
def Pc.faults : Pc K V O E → Bool
  | .body _ _ _ _ .fault => true
  | _ => false

/-- Values `A t` that transaction `t` may be answered: they grow along the block,
and transaction `t`, answered from `A t`, does not fault and writes values that
the next transaction may be answered. -/
structure Setup.Envelope (cfg : Setup T K V O E) (A : ℕ → K → V → Prop) : Prop where
  grows : ∀ t k v, A t k v → A (t + 1) k v
  body : ∀ t txn, cfg.block[t]? = some txn → (cfg.task.executeTransaction txn).Within (A t)
    fun status => ∀ write ∈ cfg.task.writesOf status, A (t + 1) write.1 write.2

/-- The run of a transaction stays inside the envelope, and so do the writes that
are still to be applied. -/
def Pc.Inside (cfg : Setup T K V O E) (A : ℕ → K → V → Prop) : Pc K V O E → Prop
  | .body t _ _ _ rest => rest.Within (A t)
      fun status => ∀ write ∈ cfg.task.writesOf status, A (t + 1) write.1 write.2
  | .readDep t _ _ _ key next => (Body.read key next).Within (A t)
      fun status => ∀ write ∈ cfg.task.writesOf status, A (t + 1) write.1 write.2
  | .readPush t _ _ _ next => (next .err).Within (A t)
      fun status => ∀ write ∈ cfg.task.writesOf status, A (t + 1) write.1 write.2
  | .prevWrites t _ _ status => ∀ write ∈ cfg.task.writesOf status, A (t + 1) write.1 write.2
  | .applyWrites t _ _ _ writes _ _ => ∀ write ∈ writes, A (t + 1) write.1 write.2
  | _ => True

/-- The cells of a transaction hold what the next one may be answered. -/
def MVHashMap.Inside (A : ℕ → K → V → Prop) (data : MVHashMap K V) : Prop :=
  ∀ k t c, data.cell k t = some c → A (t + 1) k c.data

variable {cfg : Setup T K V O E} {A : ℕ → K → V → Prop}

lemma Setup.Envelope.mono (henv : cfg.Envelope A) {t t' : ℕ} (hle : t ≤ t') {k : K} {v : V}
    (h : A t k v) : A t' k v := by
  induction hle with
  | refl => exact h
  | step _ ih => exact henv.grows _ k v ih

lemma inside_resume (k : Resume) : (k.pc : Pc K V O E).Inside cfg A :=
  k.pc_induction (P := Pc.Inside cfg A) trivial trivial trivial

/-- What a transaction finds in the map, it may be answered. -/
lemma MVHashMap.Inside.read (henv : cfg.Envelope A) {data : MVHashMap K V} (hdata : data.Inside A)
    {key : K} {t j i : ℕ} {v : V} (h : data.read key t = .ok ((j, i), v)) : A t key v := by
  obtain ⟨hlt, hcell, -⟩ := MVHashMap.read_eq_ok_iff.mp h
  exact henv.mono hlt (hdata key j _ hcell)

variable [DecidableEq K] {sh : Shared K V O E} {p p' : Pc K V O E} {mv : Move K V O E}

/-- One more cell, inside. -/
lemma MVHashMap.Inside.write {data data' : MVHashMap K V} (hdata : data.Inside A)
    {key : K} {t inc : ℕ} {v : V} {ok : Bool} (hv : A (t + 1) key v)
    (hwrite : data.write key (t, inc) v = (data', ok)) : data'.Inside A := by
  intro k j c hc
  rw [MVHashMap.cell_write hwrite] at hc
  split at hc
  · rename_i hcell
    obtain ⟨rfl, rfl⟩ := hcell
    cases hc
    exact hv
  · exact hdata k j c hc

/-- A step keeps the worker inside. -/
lemma Step.inside (henv : cfg.Envelope A) (hdata : sh.data.Inside A) (h : Step cfg sh p mv p')
    (hp : p.Inside cfg A) : p'.Inside cfg A := by
  cases h with
  | readSetNone hblock => exact henv.body _ _ hblock
  | precheckEnd hblock => exact henv.body _ _ hblock
  | bodyVersion hread =>
      refine hp (.ok (some _)) fun v hv => ?_
      cases hv
      exact hdata.read henv hread
  | bodyStorage hread => exact hp (.ok none) fun v hv => by cases hv
  | bodyError => exact hp .err fun v hv => by cases hv
  | readLock hlock hexec => exact hp .err fun v hv => by cases hv
  | bodyEnd | bodyEstimate hread | readWait | readExecuted | readPush | prevWrites => exact hp
  | applyWrite hwrite => exact fun write hmem => hp write (List.mem_cons_of_mem _ hmem)
  | schedule | doneTasksNo | doneAgainNo | doneStore | dropGuard hactive => exact inside_resume _
  | _ => trivial

/-- A step keeps the cells inside. -/
lemma Step.data_inside (hdata : sh.data.Inside A) (h : Step cfg sh p mv p')
    (hp : p.Inside cfg A) : (mv.perform sh).data.Inside A := by
  cases h with
  | applyWrite hwrite => exact hdata.write (hp _ List.mem_cons_self) hwrite
  | writeFailed hwrite => exact hdata.write (hp _ List.mem_cons_self) hwrite
  | @delete t inc reads status key prev outside data hk hdelete =>
      intro k j c hc
      change data.cell k j = some c at hc
      rw [MVHashMap.cell_delete hdelete] at hc
      split at hc
      · cases hc
      · exact hdata k j c hc
  | @markEstimate t inc key rest data hk hmark =>
      intro k j c hc
      obtain ⟨c₀, hc₀, hcells⟩ := MVHashMap.cell_markEstimate hmark
      change data.cell k j = some c at hc
      rw [hcells] at hc
      split at hc
      · rename_i hcell
        obtain ⟨rfl, rfl⟩ := hcell
        cases hc
        exact hdata k j c₀ hc₀
      · exact hdata k j c hc
  | _ => exact hdata

/-- Along a run, the cells and the workers stay inside. -/
theorem inside_leapRun (henv : cfg.Envelope A) {m : ℕ} (acts : List (Fin m × ℕ)) :
    (leapRun (m := m) cfg acts).shared.data.Inside A ∧
      ∀ w, ((leapRun cfg acts).pc w).Inside cfg A := by
  refine leapRun_induction
    (I := fun s => s.shared.data.Inside A ∧ ∀ w, (s.pc w).Inside cfg A) ?_ ?_ ?_ acts
  · refine ⟨fun k t c hc => ?_, fun _ => trivial⟩
    cases hc
  · intro s w mv p' hs _ h
    exact ⟨h.data_inside hs.1 (hs.2 w),
      Global.forall_pc_move (P := fun _ (p : Pc K V O E) => p.Inside cfg A)
        (h.inside henv hs.1 (hs.2 w)) fun w' _ => hs.2 w'⟩
  · intro s w hs _
    refine ⟨hs.1, fun w' => ?_⟩
    rw [Global.pc_panic]
    exact hs.2 w'

omit [DecidableEq K] in
/-- A run inside the envelope has not come to a fault. -/
lemma Pc.Inside.not_faults (hp : p.Inside cfg A) : p.faults = false := by
  cases p with
  | body t inc reads dependency rest =>
      cases rest with
      | fault => exact absurd hp id
      | ret status => rfl
      | read key next => rfl
  | _ => rfl

/-- **No incarnation faults** inside an envelope, on any number of workers and in
any interleaving. -/
theorem no_fault_of_envelope (henv : cfg.Envelope A) {m : ℕ} (acts : List (Fin m × ℕ))
    (w : Fin m) : ((leapRun cfg acts).pc w).faults = false :=
  ((inside_leapRun henv acts).2 w).not_faults

end StablecoinSystem
