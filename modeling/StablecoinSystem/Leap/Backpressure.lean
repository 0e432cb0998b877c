import Mathlib.Algebra.Order.Floor.Semifield
import Mathlib.Data.Rat.Floor
import Mathlib.Tactic.Linarith
import Mathlib.Tactic.Ring

/-!
Adaptive backpressure (`leap/src/backpressure.rs`).

After each block the controller shrinks its window by a factor if many executions
were aborted or had to wait, and widens it if few did. Rates, thresholds and
factors are rational numbers here, floating-point numbers in the source; products
are truncated in both.

* `Valid.adjust_cases`: what one adjustment does, with the default factors;
* `Valid.run`: the window stays between its bounds;
* `backpressure_recovers_iff`: it grows in quiet times exactly if it is at least
  five, since six fifths of a smaller window are truncated to the window itself.
-/

namespace StablecoinSystem

/-- `BlockExecStats`. -/
structure BlockExecStats where
  totalExecutions : ℕ
  totalAborts : ℕ
  totalWaits : ℕ

namespace BlockExecStats

variable (stats : BlockExecStats)

/-- A count per execution, zero if nothing was executed. -/
def rate (count : ℕ) : ℚ :=
  if stats.totalExecutions = 0 then 0 else count / stats.totalExecutions

/-- `abort_rate`. -/
def abortRate : ℚ := stats.rate stats.totalAborts

/-- `wait_rate`. -/
def waitRate : ℚ := stats.rate stats.totalWaits

lemma rate_nonneg (count : ℕ) : 0 ≤ stats.rate count := by
  rw [rate]
  split
  · exact le_refl 0
  · positivity

end BlockExecStats

/-- `BackpressureController`. -/
structure BackpressureController where
  w : ℕ
  wMin : ℕ
  wMax : ℕ
  gammaDown : ℚ
  gammaUp : ℚ
  etaAbort : ℚ
  etaWait : ℚ

namespace BackpressureController

/-- `BackpressureController::new`. -/
def new (wInitial wMin wMax : ℕ) : BackpressureController where
  w := wInitial
  wMin := wMin
  wMax := wMax
  gammaDown := 4 / 5
  gammaUp := 6 / 5
  etaAbort := 1 / 10
  etaWait := 1 / 10

/-- The controller that `with_config` makes: the window and its upper bound grow
with the number of workers. -/
def withConfig (wInitial wMin wMax numWorkers : ℕ) : BackpressureController :=
  new (max wInitial (numWorkers * 16)) wMin (max wMax (numWorkers * 64))

variable (c : BackpressureController)

/-- The rates ask for a smaller window. -/
def HighContention (stats : BlockExecStats) : Prop :=
  c.etaAbort < stats.abortRate ∨ c.etaWait < stats.waitRate

/-- The rates allow a larger window. -/
def LowContention (stats : BlockExecStats) : Prop :=
  stats.abortRate < c.etaAbort / 2 ∧ stats.waitRate < c.etaWait / 2

instance (stats : BlockExecStats) : Decidable (c.HighContention stats) :=
  inferInstanceAs (Decidable (_ ∨ _))

instance (stats : BlockExecStats) : Decidable (c.LowContention stats) :=
  inferInstanceAs (Decidable (_ ∧ _))

/-- The controller with another window. -/
def resize (w : ℕ) : BackpressureController := { c with w := w }

/-- `adjust`. -/
def adjust (stats : BlockExecStats) : BackpressureController :=
  if c.HighContention stats then c.resize (max c.wMin ⌊(c.w : ℚ) * c.gammaDown⌋₊)
  else if c.LowContention stats then c.resize (min c.wMax ⌊(c.w : ℚ) * c.gammaUp⌋₊)
  else c

/-- `window`. -/
def window : ℕ := c.w

/-- The controller after a sequence of blocks. -/
def run (blocks : List BlockExecStats) : BackpressureController := blocks.foldl adjust c

/-- The window is between its bounds, and the factors are those of `new`. -/
structure Valid : Prop where
  one_le : 1 ≤ c.wMin
  min_le : c.wMin ≤ c.w
  le_max : c.w ≤ c.wMax
  gammaDown_eq : c.gammaDown = 4 / 5
  gammaUp_eq : c.gammaUp = 6 / 5

/-- The controllers of the default configuration are valid. -/
lemma valid_withConfig (numWorkers : ℕ) : (withConfig 32 4 64 numWorkers).Valid where
  one_le := show 1 ≤ 4 by decide
  min_le := le_trans (by decide : 4 ≤ 32) (Nat.le_max_left _ _)
  le_max := max_le_max (by decide) (Nat.mul_le_mul_left numWorkers (by decide))
  gammaDown_eq := rfl
  gammaUp_eq := rfl

variable {c} {stats : BlockExecStats}

/-! ### One adjustment -/

/-- Rates below half the thresholds are below the thresholds. -/
lemma LowContention.not_high (h : c.LowContention stats) : ¬c.HighContention stats := by
  have habort := stats.rate_nonneg stats.totalAborts
  have hwait := stats.rate_nonneg stats.totalWaits
  obtain ⟨hlow, hlow'⟩ := h
  rw [BlockExecStats.abortRate] at hlow
  rw [BlockExecStats.waitRate] at hlow'
  rintro (hhigh | hhigh)
  · rw [BlockExecStats.abortRate] at hhigh
    linarith
  · rw [BlockExecStats.waitRate] at hhigh
    linarith

lemma floor_mul_div (w m n : ℕ) : ⌊(w : ℚ) * (m / n)⌋₊ = m * w / n := by
  rw [mul_div_assoc', mul_comm, ← Nat.cast_mul, Nat.floor_div_eq_div]

lemma Valid.adjust_of_high (h : c.Valid) (hhigh : c.HighContention stats) :
    c.adjust stats = c.resize (max c.wMin (4 * c.w / 5)) := by
  have hfloor := floor_mul_div c.w 4 5
  push_cast at hfloor
  rw [adjust, if_pos hhigh, h.gammaDown_eq, hfloor]

lemma Valid.adjust_of_low (h : c.Valid) (hlow : c.LowContention stats) :
    c.adjust stats = c.resize (min c.wMax (6 * c.w / 5)) := by
  have hfloor := floor_mul_div c.w 6 5
  push_cast at hfloor
  rw [adjust, if_neg hlow.not_high, if_pos hlow, h.gammaUp_eq, hfloor]

/-- What one adjustment does: four fifths of the window, six fifths of it, or
nothing. -/
lemma Valid.adjust_cases (h : c.Valid) (stats : BlockExecStats) :
    c.adjust stats = c.resize (max c.wMin (4 * c.w / 5)) ∨
      c.adjust stats = c.resize (min c.wMax (6 * c.w / 5)) ∨ c.adjust stats = c := by
  by_cases hhigh : c.HighContention stats
  · exact Or.inl (h.adjust_of_high hhigh)
  · by_cases hlow : c.LowContention stats
    · exact Or.inr (Or.inl (h.adjust_of_low hlow))
    · exact Or.inr (Or.inr (by rw [adjust, if_neg hhigh, if_neg hlow]))

/-- An adjustment keeps the window between its bounds. -/
lemma Valid.adjust (h : c.Valid) (stats : BlockExecStats) : (c.adjust stats).Valid := by
  have hmin := h.min_le
  have hmax := h.le_max
  have hshrink : max c.wMin (4 * c.w / 5) ≤ c.wMax := by omega
  have hexpand : c.wMin ≤ min c.wMax (6 * c.w / 5) := by omega
  rcases h.adjust_cases stats with heq | heq | heq <;> rw [heq]
  · exact ⟨h.one_le, le_max_left _ _, hshrink, h.gammaDown_eq, h.gammaUp_eq⟩
  · exact ⟨h.one_le, hexpand, min_le_left _ _, h.gammaDown_eq, h.gammaUp_eq⟩
  · exact h

/-! ### Whole runs -/

lemma run_cons (stats : BlockExecStats) (blocks : List BlockExecStats) :
    c.run (stats :: blocks) = (c.adjust stats).run blocks :=
  rfl

/-- Only the window changes. -/
lemma exists_adjust_eq (c : BackpressureController) (stats : BlockExecStats) :
    ∃ w, c.adjust stats = c.resize w := by
  rw [BackpressureController.adjust]
  split
  · exact ⟨_, rfl⟩
  · split
    · exact ⟨_, rfl⟩
    · exact ⟨c.w, rfl⟩

lemma exists_run_eq (c : BackpressureController) (blocks : List BlockExecStats) :
    ∃ w, c.run blocks = c.resize w := by
  induction blocks generalizing c with
  | nil => exact ⟨c.w, rfl⟩
  | cons stats blocks ih =>
      obtain ⟨w, hw⟩ := c.exists_adjust_eq stats
      obtain ⟨w', hw'⟩ := ih (c.resize w)
      exact ⟨w', by rw [run_cons, hw, hw']; rfl⟩

@[simp] lemma run_wMin (c : BackpressureController) (blocks : List BlockExecStats) :
    (c.run blocks).wMin = c.wMin := by
  obtain ⟨w, hw⟩ := c.exists_run_eq blocks
  rw [hw, resize]

@[simp] lemma run_wMax (c : BackpressureController) (blocks : List BlockExecStats) :
    (c.run blocks).wMax = c.wMax := by
  obtain ⟨w, hw⟩ := c.exists_run_eq blocks
  rw [hw, resize]

lemma lowContention_run (blocks : List BlockExecStats) :
    (c.run blocks).LowContention stats ↔ c.LowContention stats := by
  obtain ⟨w, hw⟩ := c.exists_run_eq blocks
  rw [hw]
  rfl

/-- **The window stays between its bounds**, whatever the blocks. -/
lemma Valid.run (h : c.Valid) (blocks : List BlockExecStats) : (c.run blocks).Valid := by
  induction blocks generalizing c with
  | nil => exact h
  | cons stats blocks ih => exact ih (h.adjust stats)

/-- **One quiet block**: the window grows exactly if it is at least five. -/
lemma Valid.lt_adjust_iff (h : c.Valid) (hlow : c.LowContention stats) :
    c.w < (c.adjust stats).w ∨ c.w = c.wMax ↔ 5 ≤ c.w ∨ c.w = c.wMax := by
  have hmax := h.le_max
  rw [h.adjust_of_low hlow]
  change c.w < min c.wMax (6 * c.w / 5) ∨ _ ↔ _
  rw [lt_min_iff]
  omega

/-- A window of less than five does not change in quiet times. -/
lemma Valid.run_eq_self (h : c.Valid) (hw : c.w < 5) {blocks : List BlockExecStats}
    (hlow : ∀ stats ∈ blocks, c.LowContention stats) : c.run blocks = c := by
  have hmax := h.le_max
  induction blocks with
  | nil => rfl
  | cons stats blocks ih =>
      rw [List.forall_mem_cons] at hlow
      have hsame : c.adjust stats = c := by
        rw [h.adjust_of_low hlow.1, show 6 * c.w / 5 = c.w by omega, min_eq_right hmax, resize]
      rw [run_cons, hsame]
      exact ih hlow.2

/-- A larger one grows by one at least with each quiet block, up to its bound. -/
lemma Valid.le_run (h : c.Valid) (hw : 5 ≤ c.w) {blocks : List BlockExecStats}
    (hlow : ∀ stats ∈ blocks, c.LowContention stats) :
    min c.wMax (c.w + blocks.length) ≤ (c.run blocks).w := by
  induction blocks generalizing c with
  | nil => exact min_le_right _ _
  | cons stats blocks ih =>
      rw [List.forall_mem_cons] at hlow
      have hmax := h.le_max
      have hgrow : min c.wMax (c.w + 1) ≤ (c.adjust stats).w := by
        rw [h.adjust_of_low hlow.1]
        exact min_le_min_left c.wMax (by omega)
      have hbound : (c.adjust stats).wMax = c.wMax := c.run_wMax [stats]
      have hrest := ih (h.adjust stats) (by omega) fun stats' hstats' =>
        (c.lowContention_run [stats]).mpr (hlow.2 stats' hstats')
      rw [run_cons, List.length_cons]
      omega

/-- **Many quiet blocks**: the window is back at its bound exactly if it is at
least five or has not left the bound. -/
lemma Valid.run_eq_max_iff (h : c.Valid) {blocks : List BlockExecStats}
    (hlow : ∀ stats ∈ blocks, c.LowContention stats) (hmany : c.wMax ≤ c.w + blocks.length) :
    (c.run blocks).w = c.wMax ↔ 5 ≤ c.w ∨ c.w = c.wMax := by
  by_cases hw : 5 ≤ c.w
  · have hle := h.le_run hw hlow
    have hmax := (h.run blocks).le_max
    rw [run_wMax] at hmax
    rw [min_eq_left hmany] at hle
    simp only [hw, true_or, iff_true]
    omega
  · rw [h.run_eq_self (by omega) hlow]
    simp [hw]

/-- Enough busy blocks bring the window down to its lower bound. -/
lemma Valid.exists_run_eq_min (h : c.Valid) : ∃ blocks, (c.run blocks).w = c.wMin := by
  generalize hw : c.w = n
  induction n using Nat.strong_induction_on generalizing c with
  | _ n ih =>
      by_cases hmin : c.w = c.wMin
      · exact ⟨[], hmin⟩
      · -- a block with more aborts than the threshold allows
        let busy : BlockExecStats := ⟨1, ⌊c.etaAbort⌋₊ + 1, 0⟩
        have hbusy : c.HighContention busy := by
          refine Or.inl ?_
          simp only [busy, BlockExecStats.abortRate, BlockExecStats.rate, one_ne_zero, if_false]
          push_cast
          rw [div_one]
          exact Nat.lt_floor_add_one c.etaAbort
        have hle := h.min_le
        have hone := h.one_le
        have hshrink : (c.adjust busy).w = max c.wMin (4 * c.w / 5) := by
          rw [h.adjust_of_high hbusy, resize]
        obtain ⟨blocks, hblocks⟩ := ih _ (by omega) (h.adjust busy) rfl
        exact ⟨busy :: blocks, hblocks.trans (c.run_wMin [busy])⟩

/-- **Recovery.** The window stays between its bounds. A quiet block widens it,
and enough of them bring it back to the upper bound, exactly if it is at least
five or at the bound already. That is so after every sequence of blocks exactly if
the lower bound is at least five or the upper bound itself. -/
theorem backpressure_recovers_iff (c : BackpressureController) (h : c.Valid) :
    (∀ blocks, c.wMin ≤ (c.run blocks).w ∧ (c.run blocks).w ≤ c.wMax) ∧
    (∀ stats, c.LowContention stats →
      (c.w < (c.adjust stats).w ∨ c.w = c.wMax ↔ 5 ≤ c.w ∨ c.w = c.wMax)) ∧
    (∀ blocks, (∀ stats ∈ blocks, c.LowContention stats) → c.wMax ≤ c.w + blocks.length →
      ((c.run blocks).w = c.wMax ↔ 5 ≤ c.w ∨ c.w = c.wMax)) ∧
    (0 < c.etaAbort → 0 < c.etaWait →
      ((∀ blocks stats, c.LowContention stats →
          (c.run blocks).w < ((c.run blocks).adjust stats).w ∨ (c.run blocks).w = c.wMax) ↔
        5 ≤ c.wMin ∨ c.wMin = c.wMax)) := by
  have hbounds : ∀ blocks, c.wMin ≤ (c.run blocks).w ∧ (c.run blocks).w ≤ c.wMax := by
    intro blocks
    have hvalid := h.run blocks
    exact ⟨c.run_wMin blocks ▸ hvalid.min_le, c.run_wMax blocks ▸ hvalid.le_max⟩
  -- the step condition after any blocks
  have hstep : ∀ blocks stats, c.LowContention stats →
      ((c.run blocks).w < ((c.run blocks).adjust stats).w ∨ (c.run blocks).w = c.wMax ↔
        5 ≤ (c.run blocks).w ∨ (c.run blocks).w = c.wMax) := by
    intro blocks stats hlow
    have hiff := (h.run blocks).lt_adjust_iff ((c.lowContention_run blocks).mpr hlow)
    rwa [run_wMax] at hiff
  refine ⟨hbounds, fun stats hlow => h.lt_adjust_iff hlow,
    fun blocks hlow hmany => h.run_eq_max_iff hlow hmany, fun habort hwait => ⟨fun hall => ?_, ?_⟩⟩
  · obtain ⟨blocks, hblocks⟩ := h.exists_run_eq_min
    have hquiet : c.LowContention ⟨0, 0, 0⟩ := ⟨half_pos habort, half_pos hwait⟩
    have hmin := (hstep blocks _ hquiet).mp (hall blocks _ hquiet)
    rwa [hblocks] at hmin
  · intro hmin blocks stats hlow
    obtain ⟨hlower, hupper⟩ := hbounds blocks
    refine (hstep blocks stats hlow).mpr ?_
    omega

/-- A controller of the default bounds, after thirty-two quiet blocks. -/
theorem backpressure_recovers_default :
    ((new 32 4 64).run (List.replicate 32 ⟨100, 1, 1⟩)).w = 64 := by
  refine ((backpressure_recovers_iff (new 32 4 64)
    ⟨by decide, by decide, by decide, rfl, rfl⟩).2.2.1 _ (fun stats hstats => ?_)
      (by decide)).mpr (Or.inl (by decide))
  rw [List.eq_of_mem_replicate hstats]
  decide +kernel

/-- The same controller after eight busy blocks, and what quiet ones then do to
it. -/
theorem backpressure_stuck :
    let busy := (new 32 4 64).run (List.replicate 8 ⟨100, 20, 0⟩)
    busy.w = 4 ∧ (new 32 4 64).LowContention ⟨100, 1, 1⟩ ∧
      (busy.run (List.replicate 100 ⟨100, 1, 1⟩)).w = 4 := by
  decide +kernel

end BackpressureController

end StablecoinSystem
