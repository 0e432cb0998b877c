import Mathlib.Data.Finset.Prod
import Mathlib.Data.Nat.ModEq

/-!
Intervals of one width, rotated on a circle.

Each of `k` intervals of width `b` starts `b` after the one before, the first at
`o`, on a circle of `n` points with room for all of them. The starts are computed
in words that hold numbers below `M` and then reduced modulo `n` (`rotated`); the
intervals themselves do not wrap, so one may reach beyond `n`.

* `rotated_apart`: the intervals are disjoint, unless some start is beyond the
  circle and another beyond the word (`Overflows`);
* `exists_small_of_overflows`: in that case two of them overlap;
* `rotated_cover_iff`: when they cover the circle.
-/

namespace StablecoinSystem

/-! ### Tight covers -/

/-- Intervals of one width that cover a range without room to spare do not reach
beyond it and do not overlap. -/
theorem tight_cover {k b n : ℕ} {start : ℕ → ℕ} (hroom : k * b ≤ n)
    (hcover : ∀ i < n, ∃ s < k, start s ≤ i ∧ i < start s + b) :
    k * b = n ∧ (∀ s < k, ∀ i < b, start s + i < n) ∧
      ∀ s < k, ∀ t < k, ∀ i < b, ∀ j < b, start s + i = start t + j → s = t := by
  let points := Finset.range k ×ˢ Finset.range b
  let f : ℕ × ℕ → ℕ := fun p => start p.1 + p.2
  have hmem : ∀ s < k, ∀ i < b, (s, i) ∈ points := fun s hs i hi =>
    Finset.mem_product.mpr ⟨Finset.mem_range.mpr hs, Finset.mem_range.mpr hi⟩
  have hpoints : points.card = k * b := by
    rw [Finset.card_product, Finset.card_range, Finset.card_range]
  have hsubset : Finset.range n ⊆ points.image f := by
    intro i hi
    obtain ⟨s, hs, hle, hlt⟩ := hcover i (Finset.mem_range.mp hi)
    refine Finset.mem_image.mpr ⟨(s, i - start s), hmem s hs _ (by omega), ?_⟩
    change start s + (i - start s) = i
    omega
  have hlower : n ≤ (points.image f).card := by
    simpa using Finset.card_le_card hsubset
  have hupper : (points.image f).card ≤ points.card := Finset.card_image_le
  have himage : Finset.range n = points.image f := by
    refine Finset.eq_of_subset_of_card_le hsubset ?_
    rw [Finset.card_range]
    omega
  have hinj : Set.InjOn f points := Finset.card_image_iff.mp (by omega)
  refine ⟨by omega, fun s hs i hi => ?_, fun s hs t ht i hi j hj heq => ?_⟩
  · exact Finset.mem_range.mp (himage ▸ Finset.mem_image_of_mem f (hmem s hs i hi))
  · have hpair : (s, i) = (t, j) := hinj (hmem s hs i hi) (hmem t ht j hj) heq
    exact congrArg Prod.fst hpair

/-! ### Starts -/

/-- The start of interval `s`. -/
def rotated (M n b o s : ℕ) : ℕ := (o + s * b) % M % n

/-- Some interval starts beyond the circle and another beyond the word. -/
def Overflows (M n b o k : ℕ) : Prop :=
  ∃ s t, s < k ∧ t < k ∧ n ≤ o + s * b ∧ o + s * b < M ∧ M ≤ o + t * b

variable {M n b o k s t : ℕ}

lemma rotated_of_lt (hM : n < M) (h : o + s * b < n) : rotated M n b o s = o + s * b := by
  rw [rotated, Nat.mod_eq_of_lt (h.trans hM), Nat.mod_eq_of_lt h]

lemma rotated_of_le (hM : o + s * b < M) (hle : n ≤ o + s * b) (hlt : o + s * b < n + n) :
    rotated M n b o s = o + s * b - n := by
  rw [rotated, Nat.mod_eq_of_lt hM, Nat.mod_eq_sub_mod hle, Nat.mod_eq_of_lt (by omega)]

lemma rotated_of_overflow (hM : n < M) (hle : M ≤ o + s * b) (hlt : o + s * b < M + n) :
    rotated M n b o s = o + s * b - M := by
  rw [rotated, Nat.mod_eq_sub_mod hle, Nat.mod_eq_of_lt (a := o + s * b - M) (by omega),
    Nat.mod_eq_of_lt (by omega)]

/-- There is room for an interval after the start of each. -/
lemma mul_add_le (hroom : k * b ≤ n) (hs : s < k) : s * b + b ≤ n := by
  calc s * b + b = (s + 1) * b := (Nat.succ_mul s b).symm
    _ ≤ k * b := Nat.mul_le_mul_right b hs
    _ ≤ n := hroom

/-- **The intervals do not overlap**, unless some start is beyond the circle and
another beyond the word. -/
lemma rotated_apart (hM : n < M) (ho : o < n) (hroom : k * b ≤ n) (h : ¬Overflows M n b o k)
    (hst : s < t) (ht : t < k) :
    rotated M n b o s + b ≤ rotated M n b o t ∨ rotated M n b o t + b ≤ rotated M n b o s := by
  have hstep : s * b + b ≤ t * b := mul_add_le (le_refl _) hst
  have htop : t * b + b ≤ n := mul_add_le hroom ht
  by_cases hover : M ≤ o + t * b
  · rw [rotated_of_overflow hM hover (by omega)]
    by_cases hs : M ≤ o + s * b
    · rw [rotated_of_overflow hM hs (by omega)]
      omega
    · have hlow : o + s * b < n := by
        by_contra hhigh
        exact h ⟨s, t, hst.trans ht, ht, by omega, by omega, hover⟩
      rw [rotated_of_lt hM hlow]
      omega
  · by_cases hs : o + s * b < n
    · rw [rotated_of_lt hM hs]
      by_cases hlt : o + t * b < n
      · rw [rotated_of_lt hM hlt]
        omega
      · rw [rotated_of_le (by omega) (by omega) (by omega)]
        omega
    · rw [rotated_of_le (s := s) (by omega) (by omega) (by omega),
        rotated_of_le (s := t) (by omega) (by omega) (by omega)]
      omega

/-- The first start beyond a bound is less than one width beyond it. -/
lemma exists_crossing {bound : ℕ} (ho : o < bound) (ht : bound ≤ o + t * b) :
    ∃ s ≤ t, bound ≤ o + s * b ∧ o + s * b < bound + b := by
  induction t with
  | zero => omega
  | succ t ih =>
      by_cases hbelow : bound ≤ o + t * b
      · obtain ⟨s, hs, hcross⟩ := ih hbelow
        exact ⟨s, hs.trans (Nat.le_succ t), hcross⟩
      · refine ⟨t + 1, le_refl _, ht, ?_⟩
        rw [Nat.succ_mul]
        omega

/-- **Otherwise two of them overlap**: both start in the first `b` points. -/
lemma exists_small_of_overflows (hM : n < M) (ho : o < n) (hroom : k * b ≤ n)
    (h : Overflows M n b o k) :
    ∃ s t, s < k ∧ t < k ∧ s ≠ t ∧ rotated M n b o s < b ∧ rotated M n b o t < b := by
  obtain ⟨s, t, hs, ht, hbeyond, hword, hover⟩ := h
  obtain ⟨s', hs', hge, hlt⟩ := exists_crossing ho hbeyond
  obtain ⟨t', ht', hge', hlt'⟩ := exists_crossing (ho.trans hM) hover
  have hmono : s' * b ≤ s * b := Nat.mul_le_mul_right b hs'
  have htop := mul_add_le hroom (hs'.trans_lt hs)
  refine ⟨s', t', hs'.trans_lt hs, ht'.trans_lt ht, ?_, ?_, ?_⟩
  · rintro rfl
    omega
  · rw [rotated_of_le (by omega) hge (by omega)]
    omega
  · rw [rotated_of_overflow hM hge' (by omega)]
    omega

/-! ### Covering the circle -/

/-- With the circle tiled and no start beyond the word, an interval starts at
each multiple of the width. -/
lemma rotated_eq_mul (htile : k * b = n) {j : ℕ} (hword : j * b + s * b < M) :
    rotated M n b (j * b) s = (j + s) % k * b := by
  rw [rotated, Nat.mod_eq_of_lt hword, ← Nat.add_mul, ← htile, Nat.mul_mod_mul_right]

lemma mul_le_pred_mul (hs : s < k) : s * b ≤ (k - 1) * b :=
  Nat.mul_le_mul_right b (by omega)

/-- Intervals that tile the circle do not reach beyond it. -/
lemma rotated_add_le (htile : k * b = n) (hdvd : b ∣ o) (hword : o + (k - 1) * b < M)
    (hs : s < k) : rotated M n b o s + b ≤ n := by
  obtain ⟨j, rfl⟩ := hdvd
  have hlast := mul_le_pred_mul (b := b) hs
  rw [Nat.mul_comm b j, rotated_eq_mul htile (by rw [Nat.mul_comm j]; omega), ← htile]
  exact mul_add_le (le_refl _) (Nat.mod_lt _ (by omega))

/-- No start is beyond the word if the circle is covered: the interval before it
would reach beyond the circle or two would overlap. -/
lemma word_of_cover (hM : n < M) (ho : o < n) (hroom : k * b ≤ n)
    (hcover : ∀ i < n, ∃ s < k, rotated M n b o s ≤ i ∧ i < rotated M n b o s + b) :
    o + (k - 1) * b < M := by
  obtain ⟨-, hinside, hapart⟩ := tight_cover hroom hcover
  by_contra hword
  obtain ⟨t, ht, hge, hlt⟩ := exists_crossing (ho.trans hM) (not_lt.mp hword)
  cases t with
  | zero => omega
  | succ t =>
      rw [Nat.succ_mul] at hge hlt
      by_cases hlow : o + t * b < n
      · have hlast := hinside t (by omega) (b - 1) (by omega)
        rw [rotated_of_lt hM hlow] at hlast
        omega
      · have hoverflows : Overflows M n b o k :=
          ⟨t, t + 1, by omega, by omega, by omega, by omega, by rw [Nat.succ_mul]; omega⟩
        obtain ⟨s, s', hs, hs', hne, hsmall, hsmall'⟩ :=
          exists_small_of_overflows hM ho hroom hoverflows
        exact hne (hapart s hs s' hs' (b - 1 - rotated M n b o s) (by omega)
          (b - 1 - rotated M n b o s') (by omega) (by omega))

/-- **When the intervals cover the circle**: they have to tile it, the rotation
is by whole intervals, and no start is beyond the word. -/
theorem rotated_cover_iff (hM : n < M) (ho : o < n) (hroom : k * b ≤ n) :
    (∀ i < n, ∃ s < k, rotated M n b o s ≤ i ∧ i < rotated M n b o s + b) ↔
      k * b = n ∧ b ∣ o ∧ o + (k - 1) * b < M := by
  constructor
  · intro hcover
    have hword := word_of_cover hM ho hroom hcover
    have htile := (tight_cover hroom hcover).1
    refine ⟨htile, ?_, hword⟩
    -- the interval that covers the origin starts there
    obtain ⟨s, hs, hzero, -⟩ := hcover 0 (by omega)
    have hlast := mul_le_pred_mul (b := b) hs
    rw [Nat.le_zero, rotated, Nat.mod_eq_of_lt (show o + s * b < M by omega)] at hzero
    have hb : b ∣ o + s * b :=
      (Dvd.intro_left k htile).trans (Nat.dvd_of_mod_eq_zero hzero)
    exact (Nat.dvd_add_left (Nat.dvd_mul_left b s)).mp hb
  · rintro ⟨htile, ⟨j, rfl⟩, hword⟩ i hi
    rw [Nat.mul_comm b j] at ho hword ⊢
    have hb : 0 < b := by
      by_contra hzero
      rw [Nat.eq_zero_of_not_pos hzero, Nat.mul_zero] at htile
      omega
    have hj : j < k := by
      rw [← htile] at ho
      exact Nat.lt_of_mul_lt_mul_right ho
    have hik : i / b < k := by
      rw [Nat.div_lt_iff_lt_mul hb, htile]
      exact hi
    -- the interval that starts at the multiple of the width below
    refine ⟨(i / b + k - j) % k, Nat.mod_lt _ (by omega), ?_⟩
    have hlast := mul_le_pred_mul (b := b) (Nat.mod_lt (i / b + k - j) (show 0 < k by omega))
    have hslot : (j + (i / b + k - j) % k) % k = i / b := by
      rw [Nat.add_mod_mod, Nat.add_sub_of_le (hj.le.trans (Nat.le_add_left _ _)),
        Nat.add_mod_right, Nat.mod_eq_of_lt hik]
    rw [rotated_eq_mul htile (by omega), hslot]
    exact ⟨Nat.div_mul_le_self i b, Nat.lt_div_mul_add hb⟩

end StablecoinSystem
