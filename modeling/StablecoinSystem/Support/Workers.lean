import Mathlib.Algebra.BigOperators.Group.Finset.Basic
import Mathlib.Algebra.Order.BigOperators.Group.Finset
import Mathlib.Data.Fintype.BigOperators

/-!
Workers over a shared state.

A `Machine` says what one atomic step of a worker does: from the shared state
and its own program counter to a new pair, or a panic, which unwinds and stops
the worker for good. Steps of different workers interleave in any order
(`Machine.run`).

* `run_induction_of`: an invariant kept by every panic and by every move from a
  state that meets a condition holds along every run that meets the condition.
* `calm_run`: nobody panics if no step from a reachable calm state does.
* `panicked_run`: where the workers that have panicked died.
* `Solo`, `exists_run_of_solo`: a worker may step alone for as long as it can.
* `events`, `run_induction_events`: the events of a run, and invariants that
  relate them to the state.
* `Lockstep`, `Lockstep.trace_eq`: machines that move together have the same
  traces.
* `tally`: a quantity summed over the workers. A move of one worker changes it
  by what that worker gives up and takes on (`tally_move`), two workers
  together contribute at most the whole (`add_le_tally`).
-/

namespace StablecoinSystem

open Finset

/-- A worker: its program counter, and whether it has panicked there. -/
structure Worker (π : Type) where
  pc : π
  panicked : Bool

/-- The shared state and the workers. -/
structure Global (W σ π : Type) where
  shared : σ
  worker : W → Worker π

/-- The atomic steps of a worker. A choice of type `χ` resolves what the code
leaves open, such as the order of iteration over a hash set. -/
structure Machine (σ π χ : Type) where
  /-- One step of a worker; `none` is a panic. -/
  next : χ → σ → π → Option (σ × π)
  /-- What unwinding a worker that panics does to the shared state. -/
  unwind : σ → σ

variable {W σ π χ : Type} [DecidableEq W]

namespace Global

/-- The program counter of a worker. -/
def pc (s : Global W σ π) (w : W) : π := (s.worker w).pc

/-- Worker `w` has stepped to shared state `sh` and program counter `p`. -/
def move (s : Global W σ π) (w : W) (sh : σ) (p : π) : Global W σ π :=
  ⟨sh, Function.update s.worker w ⟨p, false⟩⟩

/-- Worker `w` has panicked, which left the shared state `sh`. -/
def panic (s : Global W σ π) (w : W) (sh : σ) : Global W σ π :=
  ⟨sh, Function.update s.worker w ⟨s.pc w, true⟩⟩

/-- No worker has panicked. -/
def Calm (s : Global W σ π) : Prop := ∀ w, (s.worker w).panicked = false

@[simp] lemma shared_move (s : Global W σ π) (w : W) (sh : σ) (p : π) :
    (s.move w sh p).shared = sh := rfl

@[simp] lemma pc_move_self (s : Global W σ π) (w : W) (sh : σ) (p : π) :
    (s.move w sh p).pc w = p := by
  simp [pc, move]

lemma worker_move_of_ne (s : Global W σ π) {w w' : W} (h : w' ≠ w) (sh : σ) (p : π) :
    (s.move w sh p).worker w' = s.worker w' := by
  simp [move, h]

@[simp] lemma pc_move_of_ne (s : Global W σ π) {w w' : W} (h : w' ≠ w) (sh : σ) (p : π) :
    (s.move w sh p).pc w' = s.pc w' := by
  rw [pc, worker_move_of_ne s h, pc]

lemma worker_panic_of_ne (s : Global W σ π) {w w' : W} (h : w' ≠ w) (sh : σ) :
    (s.panic w sh).worker w' = s.worker w' := by
  simp [panic, h]

@[simp] lemma pc_panic (s : Global W σ π) (w w' : W) (sh : σ) :
    (s.panic w sh).pc w' = s.pc w' := by
  by_cases h : w' = w
  · simp [pc, panic, h]
  · simp [pc, panic, h]

/-- A predicate of the program counters after a move: the mover's new one, and
the others' as they were. -/
lemma forall_pc_move {P : W → π → Prop} {s : Global W σ π} {w : W} {sh : σ} {p : π}
    (hself : P w p) (hothers : ∀ w' ≠ w, P w' (s.pc w')) (w' : W) :
    P w' ((s.move w sh p).pc w') := by
  by_cases h : w' = w
  · subst h
    rwa [pc_move_self]
  · rw [pc_move_of_ne s h]
    exact hothers w' h

/-- If nobody has panicked after a move, nobody had before. -/
lemma Calm.of_move {s : Global W σ π} {w : W} {sh : σ} {p : π}
    (hw : (s.worker w).panicked = false) (h : (s.move w sh p).Calm) : s.Calm := by
  intro w'
  by_cases hne : w' = w
  · rw [hne, hw]
  · rw [← worker_move_of_ne s hne sh p]
    exact h w'

lemma not_calm_panic (s : Global W σ π) (w : W) (sh : σ) : ¬(s.panic w sh).Calm := by
  intro h
  have hw := h w
  simp [panic] at hw

end Global

/-! ### Runs -/

namespace Machine

variable (M : Machine σ π χ)

/-- One step of worker `w`; a worker that has panicked does nothing. -/
def step (w : W) (c : χ) (s : Global W σ π) : Global W σ π :=
  if (s.worker w).panicked then s
  else
    match M.next c s.shared (s.pc w) with
    | some (sh, p) => s.move w sh p
    | none => s.panic w (M.unwind s.shared)

/-- A run: the workers step in the order of the list. -/
def run (acts : List (W × χ)) (s : Global W σ π) : Global W σ π :=
  acts.foldl (fun s act => M.step act.1 act.2 s) s

/-- **The invariant rule**: what holds at the start, and is kept by every panic
and by every move from a state that meets `C`, holds after every run all of
whose states meet `C`. -/
theorem run_induction_of {I C : Global W σ π → Prop}
    (hmove : ∀ (s : Global W σ π) (w : W) (c : χ) (sh : σ) (p : π), I s → C s →
      (s.worker w).panicked = false → M.next c s.shared (s.pc w) = some (sh, p) →
      I (s.move w sh p))
    (hpanic : ∀ (s : Global W σ π) (w : W), I s → (s.worker w).panicked = false →
      I (s.panic w (M.unwind s.shared)))
    (acts : List (W × χ)) {s : Global W σ π} (h : I s)
    (hC : ∀ acts', acts' <+: acts → C (M.run acts' s)) : I (M.run acts s) := by
  induction acts generalizing s with
  | nil => exact h
  | cons act acts ih =>
      refine ih ?_ fun acts' hprefix => hC (act :: acts') (List.cons_prefix_cons.mpr ⟨rfl, hprefix⟩)
      show I (M.step act.1 act.2 s)
      rw [step]
      split
      · exact h
      · rename_i hcalm
        have hcalm := Bool.eq_false_iff.mpr hcalm
        split
        · rename_i sh p hnext
          exact hmove s act.1 act.2 sh p h (hC [] List.nil_prefix) hcalm hnext
        · exact hpanic s act.1 h hcalm

lemma run_append_singleton (acts : List (W × χ)) (act : W × χ) (s : Global W σ π) :
    M.run (acts ++ [act]) s = M.step act.1 act.2 (M.run acts s) := by
  rw [run, List.foldl_append]
  rfl

/-- **Nobody panics** in a run if no step from a reachable state without a panic
does. -/
theorem calm_run {s : Global W σ π} (hs : s.Calm) (acts : List (W × χ))
    (hnext : ∀ acts w c, (M.run acts s).Calm →
      (M.next c (M.run acts s).shared ((M.run acts s).pc w)).isSome) : (M.run acts s).Calm := by
  induction acts using List.reverseRecOn with
  | nil => exact hs
  | append_singleton acts act ih =>
      obtain ⟨⟨sh, p⟩, hp⟩ := Option.isSome_iff_exists.mp (hnext acts act.1 act.2 ih)
      rw [run_append_singleton, step, if_neg (by simp [ih act.1]), hp]
      intro w
      by_cases hw : w = act.1
      · simp [Global.move, hw]
      · rw [Global.worker_move_of_ne _ hw]
        exact ih w

/-- A worker that has panicked died where a step from a reachable state
panics. -/
theorem panicked_run {P : π → Prop} {s : Global W σ π} (hs : s.Calm) (acts : List (W × χ))
    (hnext : ∀ acts w c, M.next c (M.run acts s).shared ((M.run acts s).pc w) = none →
      P ((M.run acts s).pc w)) {w : W} (hw : ((M.run acts s).worker w).panicked = true) :
    P ((M.run acts s).pc w) := by
  induction acts using List.reverseRecOn with
  | nil => exact absurd ((hs w).symm.trans hw) Bool.false_ne_true
  | append_singleton acts act ih =>
      rw [run_append_singleton, step] at hw ⊢
      split at hw
      · rename_i hdead
        rw [if_pos hdead]
        exact ih hw
      · rename_i hcalm
        rw [if_neg hcalm]
        split at hw
        · rename_i sh p _
          have hne : w ≠ act.1 := fun heq => by simp [Global.move, heq] at hw
          rw [Global.worker_move_of_ne _ hne] at hw
          rw [Global.pc_move_of_ne _ hne]
          exact ih hw
        · rename_i hnone
          rw [Global.pc_panic]
          by_cases heq : w = act.1
          · rw [heq]
            exact hnext acts act.1 act.2 hnone
          · rw [Global.worker_panic_of_ne _ heq] at hw
            exact ih hw

/-- What a worker can make of the shared state and its program counter on its
own. -/
def Solo : σ × π → σ × π → Prop :=
  Relation.ReflTransGen fun x y => ∃ c, M.next c x.1 x.2 = some y

instance : Trans M.Solo M.Solo M.Solo := ⟨Relation.ReflTransGen.trans⟩

/-- The scheduler may leave the processor to one worker. -/
theorem exists_run_of_solo {s : Global W σ π} {w : W} (hcalm : (s.worker w).panicked = false)
    {y : σ × π} (h : M.Solo (s.shared, s.pc w) y) :
    ∃ acts, M.run acts s = s.move w y.1 y.2 := by
  induction h with
  | refl =>
      refine ⟨[], ?_⟩
      have hself : (⟨s.pc w, false⟩ : Worker π) = s.worker w := by rw [← hcalm, Global.pc]
      rw [Global.move, hself, Function.update_eq_self]
      rfl
  | @tail y z _ hstep ih =>
      obtain ⟨acts, hacts⟩ := ih
      obtain ⟨c, hc⟩ := hstep
      have hnext : M.next c (s.move w y.1 y.2).shared ((s.move w y.1 y.2).pc w) = some z := by
        rw [Global.shared_move, Global.pc_move_self]
        exact hc
      refine ⟨acts ++ [(w, c)], ?_⟩
      rw [run_append_singleton, hacts, step, if_neg (by simp [Global.move]), hnext]
      simp only [Global.move, Function.update_idem]

/-! ### The events of a run -/

variable {ε : Type} (event : π → π → Option ε)

/-- The event of one step of worker `w`, by its program counters before and
after. A panic is none. -/
def stepEvents (w : W) (c : χ) (s : Global W σ π) : List ε :=
  if (s.worker w).panicked then []
  else
    match M.next c s.shared (s.pc w) with
    | some (_, p) => (event (s.pc w) p).toList
    | none => []

/-- The events of a run, in order. -/
def events : List (W × χ) → Global W σ π → List ε
  | [], _ => []
  | act :: acts, s =>
      M.stepEvents event act.1 act.2 s ++ events acts (M.step act.1 act.2 s)

/-- **The invariant rule with events**: what holds of the events and the state at
the start, and is kept by every move with its event and by every panic, holds of
the events and the state after every run. -/
theorem run_induction_events {I : List ε → Global W σ π → Prop}
    (hmove : ∀ (log : List ε) (s : Global W σ π) (w : W) (c : χ) (sh : σ) (p : π), I log s →
      M.next c s.shared (s.pc w) = some (sh, p) →
      I (log ++ (event (s.pc w) p).toList) (s.move w sh p))
    (hpanic : ∀ (log : List ε) (s : Global W σ π) (w : W), I log s →
      I log (s.panic w (M.unwind s.shared)))
    (acts : List (W × χ)) {log : List ε} {s : Global W σ π} (h : I log s) :
    I (log ++ M.events event acts s) (M.run acts s) := by
  induction acts generalizing log s with
  | nil =>
      rw [events, List.append_nil]
      exact h
  | cons act acts ih =>
      rw [events, ← List.append_assoc]
      refine ih ?_
      rw [stepEvents, step]
      split
      · rwa [List.append_nil]
      · split
        · rename_i sh p hnext
          exact hmove log s act.1 act.2 sh p h hnext
        · rw [List.append_nil]
          exact hpanic log s act.1 h

/-! ### Two machines in lockstep -/

variable {τ : Type} (view : σ → τ)

/-- What can be seen of a run: for each step its events and, through `view`, the
shared state after it. -/
def trace : List (W × χ) → Global W σ π → List (List ε × τ)
  | [], _ => []
  | act :: acts, s =>
      (M.stepEvents event act.1 act.2 s, view (M.step act.1 act.2 s).shared) ::
        trace acts (M.step act.1 act.2 s)

/-- Two machines that, from shared states related by `R`, panic together or move
to the same program counter and to related shared states. -/
structure Lockstep (M M' : Machine σ π χ) (R : σ → σ → Prop) : Prop where
  next : ∀ (c : χ) (sh sh' : σ) (p : π), R sh sh' →
    Option.Rel (fun next next' => R next.1 next'.1 ∧ next.2 = next'.2)
      (M.next c sh p) (M'.next c sh' p)
  unwind : ∀ sh sh' : σ, R sh sh' → R (M.unwind sh) (M'.unwind sh')

namespace Lockstep

variable {M M' : Machine σ π χ} {R : σ → σ → Prop} {event : π → π → Option ε} {view : σ → τ}

/-- One step of the same worker: the same events, and related states of the same
workers. -/
lemma step (h : Lockstep M M' R) (w : W) (c : χ) {s s' : Global W σ π}
    (hshared : R s.shared s'.shared) (hworker : s.worker = s'.worker) :
    M.stepEvents event w c s = M'.stepEvents event w c s' ∧
      R (M.step w c s).shared (M'.step w c s').shared ∧
      (M.step w c s).worker = (M'.step w c s').worker := by
  have hpc : s.pc w = s'.pc w := by rw [Global.pc, Global.pc, hworker]
  have hnext := h.next c s.shared s'.shared (s.pc w) hshared
  rw [stepEvents, stepEvents, Machine.step, Machine.step, ← hworker, ← hpc]
  by_cases hpanicked : (s.worker w).panicked
  · simp only [hpanicked, if_true]
    exact ⟨trivial, hshared, hworker⟩
  · simp only [hpanicked]
    cases hM : M.next c s.shared (s.pc w) with
    | none =>
        rw [hM] at hnext
        cases hM' : M'.next c s'.shared (s.pc w) with
        | none => exact ⟨rfl, h.unwind _ _ hshared, by simp [Global.panic, hworker, hpc]⟩
        | some next' => simp [hM'] at hnext
    | some next =>
        rw [hM] at hnext
        cases hM' : M'.next c s'.shared (s.pc w) with
        | none => simp [hM'] at hnext
        | some next' =>
            obtain ⟨hrel, heq⟩ : R next.1 next'.1 ∧ next.2 = next'.2 := by
              simpa [hM'] using hnext
            exact ⟨by simp [heq], hrel, by simp [Global.move, hworker, heq]⟩

/-- **Machines in lockstep have the same traces**, if the view does not tell
related states apart. -/
theorem trace_eq (h : Lockstep M M' R) (hview : ∀ sh sh', R sh sh' → view sh = view sh')
    (acts : List (W × χ)) {s s' : Global W σ π} (hshared : R s.shared s'.shared)
    (hworker : s.worker = s'.worker) :
    M.trace event view acts s = M'.trace event view acts s' := by
  induction acts generalizing s s' with
  | nil => rfl
  | cons act acts ih =>
      obtain ⟨hevents, hshared', hworker'⟩ := h.step act.1 act.2 hshared hworker
      rw [trace, trace, hevents, hview _ _ hshared', ih hshared' hworker']

end Lockstep

end Machine

/-! ### Sums over the workers -/

variable [Fintype W]

/-- A quantity summed over the workers. -/
def tally (f : Worker π → ℕ) (s : Global W σ π) : ℕ := ∑ w, f (s.worker w)

omit [DecidableEq W] [Fintype W] in
/-- Replacing one value changes a sum by the difference of the shares. -/
lemma sum_update_add {ι β : Type} [DecidableEq ι] {I : Finset ι} (f : β → ℕ) (g : ι → β) {i : ι}
    (hi : i ∈ I) (x : β) :
    (∑ j ∈ I, f (Function.update g i x j)) + f (g i) = (∑ j ∈ I, f (g j)) + f x := by
  rw [← Finset.add_sum_erase I _ hi, ← Finset.add_sum_erase I _ hi, Function.update_self]
  have hrest : ∑ j ∈ I.erase i, f (Function.update g i x j) = ∑ j ∈ I.erase i, f (g j) :=
    Finset.sum_congr rfl fun j hj => by
      rw [Function.update_of_ne (Finset.ne_of_mem_erase hj)]
  rw [hrest]
  omega

lemma tally_move (f : Worker π → ℕ) (s : Global W σ π) (w : W) (sh : σ) (p : π) :
    tally f (s.move w sh p) + f (s.worker w) = tally f s + f ⟨p, false⟩ :=
  sum_update_add f s.worker (mem_univ w) ⟨p, false⟩

/-- A panic leaves a quantity of the program counters alone. -/
lemma tally_panic_pc (f : π → ℕ) (s : Global W σ π) (w : W) (sh : σ) :
    tally (fun wk => f wk.pc) (s.panic w sh) = tally (fun wk => f wk.pc) s :=
  Finset.sum_congr rfl fun w' _ => congrArg f (s.pc_panic w w' sh)

omit [DecidableEq W] in
lemma le_tally (f : Worker π → ℕ) (s : Global W σ π) (w : W) : f (s.worker w) ≤ tally f s :=
  Finset.single_le_sum (f := fun w => f (s.worker w)) (fun _ _ => Nat.zero_le _) (mem_univ w)

/-- Two different workers together contribute at most the whole. -/
lemma add_le_tally (f : Worker π → ℕ) (s : Global W σ π) {w w' : W} (h : w' ≠ w) :
    f (s.worker w) + f (s.worker w') ≤ tally f s := by
  rw [tally, ← Finset.add_sum_erase univ _ (mem_univ w)]
  have hmem : w' ∈ univ.erase w := Finset.mem_erase.mpr ⟨h, mem_univ w'⟩
  have hle := Finset.single_le_sum (f := fun w => f (s.worker w)) (fun _ _ => Nat.zero_le _) hmem
  omega

omit [DecidableEq W] in
lemma exists_of_tally_pos {f : Worker π → ℕ} {s : Global W σ π} (h : 0 < tally f s) :
    ∃ w, 0 < f (s.worker w) := by
  by_contra hnone
  push Not at hnone
  have hzero : tally f s = 0 := Finset.sum_eq_zero fun w _ => Nat.le_zero.mp (hnone w)
  omega

end StablecoinSystem
