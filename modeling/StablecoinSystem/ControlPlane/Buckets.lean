import StablecoinSystem.ControlPlane.SlotLayer
import StablecoinSystem.Support.Rotation

/-!
Bucket assignment (`control_plane/anti_duplication.rs`): which buckets the slots
of a view load.

The slots have ranges of `n_buckets / k_slots` buckets, one after another from an
offset that the view determines. The starts are reduced modulo `n_buckets`, the
ends are not. The arithmetic is that of 64-bit words; `n_buckets` is one.

* `bucket_coverage_iff`: the slots cover the buckets exactly if `k_slots` divides
  `n_buckets` and neither the offset nor a start overflows badly;
* `bucket_disjoint_iff`: the ranges of two slots overlap only if starts overflow,
  for which there have to be more than `2 ^ 63` buckets
  (`bucketRanges_disjoint`).
-/

namespace StablecoinSystem.ControlPlane

/-- `BucketRange::contains`. -/
def BucketRange.contains (range : BucketRange) (bucket : BucketId) : Bool :=
  decide (range.start ≤ bucket) && decide (bucket < range.stop)

/-- `tx_bucket`, `none` for the remainder by zero. -/
def txBucket (hash : List UInt8 → DigestBytes) (txHash : List UInt8) (nBuckets : ℕ) :
    Option BucketId :=
  let val := fromLeBytes ((hash txHash).bytes.take 8)
  if nBuckets = 0 then none else some (UInt64.ofNat (val % nBuckets))

lemma txBucket_lt {hash : List UInt8 → DigestBytes} {txHash : List UInt8} {nBuckets : ℕ}
    {bucket : BucketId} (hn : nBuckets < 2 ^ 64)
    (h : txBucket hash txHash nBuckets = some bucket) : bucket.toNat < nBuckets := by
  rw [txBucket] at h
  split at h
  · cases h
  · cases h
    have hlt := Nat.mod_lt (fromLeBytes ((hash txHash).bytes.take 8))
      (show 0 < nBuckets by omega)
    rwa [UInt64.toNat_ofNat', Nat.mod_eq_of_lt (hlt.trans hn)]

/-- The `offset` of `assign_buckets`. -/
def bucketOffset (view : View) (nBuckets kSlots : ℕ) : ℕ :=
  view.toNat * (nBuckets / kSlots) % 2 ^ 64 % nBuckets

/-- Where the range of a slot starts. -/
def slotStart (view : View) (nBuckets kSlots s : ℕ) : ℕ :=
  rotated (2 ^ 64) nBuckets (nBuckets / kSlots) (bucketOffset view nBuckets kSlots) s

/-- The range of a slot. -/
def slotRange (view : View) (nBuckets kSlots s : ℕ) : BucketRange where
  start := UInt64.ofNat (slotStart view nBuckets kSlots s)
  stop := UInt64.ofNat (slotStart view nBuckets kSlots s + nBuckets / kSlots)

section

variable {view : View} {nBuckets kSlots : ℕ}

lemma assignBuckets_eq (hk : 1 ≤ kSlots) (hpos : 1 ≤ nBuckets) :
    assignBuckets view nBuckets kSlots =
      some ((List.range kSlots).map (slotRange view nBuckets kSlots)) := by
  rw [assignBuckets, if_neg (by omega)]
  rfl

lemma bucketOffset_lt (hpos : 1 ≤ nBuckets) : bucketOffset view nBuckets kSlots < nBuckets :=
  Nat.mod_lt _ hpos

lemma slotStart_lt (hpos : 1 ≤ nBuckets) (s : ℕ) : slotStart view nBuckets kSlots s < nBuckets :=
  Nat.mod_lt _ hpos

/-- A range holds the buckets from its start to its end, as a word holds it. -/
lemma contains_slotRange (hn : nBuckets < 2 ^ 64) (hpos : 1 ≤ nBuckets) {s : ℕ}
    {bucket : BucketId} :
    (slotRange view nBuckets kSlots s).contains bucket = true ↔
      slotStart view nBuckets kSlots s ≤ bucket.toNat ∧
        bucket.toNat < (slotStart view nBuckets kSlots s + nBuckets / kSlots) % 2 ^ 64 := by
  have hstart : slotStart view nBuckets kSlots s < 2 ^ 64 := (slotStart_lt hpos s).trans hn
  rw [BucketRange.contains, Bool.and_eq_true, decide_eq_true_eq, decide_eq_true_eq,
    UInt64.le_iff_toNat_le, UInt64.lt_iff_toNat_lt]
  simp only [slotRange, UInt64.toNat_ofNat', Nat.mod_eq_of_lt hstart]

lemma lt_of_contains (hn : nBuckets < 2 ^ 64) (hpos : 1 ≤ nBuckets) {s : ℕ} {bucket : BucketId}
    (h : (slotRange view nBuckets kSlots s).contains bucket = true) :
    slotStart view nBuckets kSlots s ≤ bucket.toNat ∧
      bucket.toNat < slotStart view nBuckets kSlots s + nBuckets / kSlots := by
  obtain ⟨hle, hlt⟩ := (contains_slotRange hn hpos).mp h
  exact ⟨hle, hlt.trans_le (Nat.mod_le _ _)⟩

/-- The end of a range that fits in a word is its end. -/
lemma contains_iff_of_lt (hn : nBuckets < 2 ^ 64) (hpos : 1 ≤ nBuckets) {s : ℕ}
    {bucket : BucketId}
    (hword : slotStart view nBuckets kSlots s + nBuckets / kSlots < 2 ^ 64) :
    (slotRange view nBuckets kSlots s).contains bucket = true ↔
      slotStart view nBuckets kSlots s ≤ bucket.toNat ∧
        bucket.toNat < slotStart view nBuckets kSlots s + nBuckets / kSlots := by
  rw [contains_slotRange hn hpos, Nat.mod_eq_of_lt hword]

end

/-! ### Coverage -/

/-- The buckets are covered exactly if the intervals cover the circle, and then
no range reaches beyond the last bucket. -/
lemma covered_iff {view : View} {nBuckets kSlots : ℕ} (hn : nBuckets < 2 ^ 64)
    (hpos : 1 ≤ nBuckets) :
    ((∀ bucket : BucketId, bucket.toNat < nBuckets →
        ∃ r ∈ (List.range kSlots).map (slotRange view nBuckets kSlots),
          r.contains bucket = true) ∧
      ∀ r ∈ (List.range kSlots).map (slotRange view nBuckets kSlots), ∀ bucket,
        r.contains bucket = true → bucket.toNat < nBuckets) ↔
    kSlots * (nBuckets / kSlots) = nBuckets ∧
      nBuckets / kSlots ∣ bucketOffset view nBuckets kSlots ∧
      bucketOffset view nBuckets kSlots + (kSlots - 1) * (nBuckets / kSlots) < 2 ^ 64 := by
  have hroom := Nat.mul_div_le nBuckets kSlots
  have ho : bucketOffset view nBuckets kSlots < nBuckets := bucketOffset_lt hpos
  have hcover := rotated_cover_iff hn ho hroom
  rw [← hcover]
  constructor
  -- a bucket below `nBuckets` is a word, so the covering ranges are read at its number
  · rintro ⟨hcovered, -⟩ i hi
    have htoNat : (UInt64.ofNat i).toNat = i := by
      rw [UInt64.toNat_ofNat', Nat.mod_eq_of_lt (hi.trans hn)]
    obtain ⟨r, hr, hcontains⟩ := hcovered (UInt64.ofNat i) (by rwa [htoNat])
    obtain ⟨s, hs, rfl⟩ := List.mem_map.mp hr
    have hin := lt_of_contains hn hpos hcontains
    rw [htoNat] at hin
    exact ⟨s, List.mem_range.mp hs, hin⟩
  · intro hall
    -- covered means tiled, and then no interval wraps around the end of the words
    obtain ⟨htile, hdvd, hword⟩ := hcover.mp hall
    have hinside : ∀ s < kSlots, slotStart view nBuckets kSlots s + nBuckets / kSlots ≤ nBuckets :=
      fun s hs => rotated_add_le htile hdvd hword hs
    constructor
    · intro bucket hbucket
      obtain ⟨s, hs, hin⟩ := hall bucket.toNat hbucket
      exact ⟨_, List.mem_map_of_mem (List.mem_range.mpr hs),
        (contains_iff_of_lt hn hpos ((hinside s hs).trans_lt hn)).mpr hin⟩
    · intro r hr bucket hcontains
      obtain ⟨s, hs, rfl⟩ := List.mem_map.mp hr
      have hin := lt_of_contains hn hpos hcontains
      exact hin.2.trans_le (hinside s (List.mem_range.mp hs))

/-- **Coverage.** Every bucket is in the range of a slot, and no range reaches
beyond the buckets, exactly if the slots divide the buckets, the offset is a
multiple of the size of a range even if the product with the view wraps, and the
start of the last slot fits in a word. -/
theorem bucket_coverage_iff (view : View) (nBuckets kSlots : ℕ) (hn : nBuckets < 2 ^ 64)
    (hk : 1 ≤ kSlots) (hle : kSlots ≤ nBuckets) :
    ∃ ranges, assignBuckets view nBuckets kSlots = some ranges ∧
      ((∀ bucket : BucketId, bucket.toNat < nBuckets → ∃ r ∈ ranges, r.contains bucket = true) ∧
          (∀ r ∈ ranges, ∀ bucket, r.contains bucket = true → bucket.toNat < nBuckets) ↔
        kSlots ∣ nBuckets ∧
          nBuckets / kSlots ∣ view.toNat * (nBuckets / kSlots) % 2 ^ 64 ∧
          view.toNat * (nBuckets / kSlots) % 2 ^ 64 % nBuckets +
            (kSlots - 1) * (nBuckets / kSlots) < 2 ^ 64) := by
  refine ⟨_, assignBuckets_eq hk (hk.trans hle), ?_⟩
  rw [covered_iff hn (hk.trans hle)]
  have htile : kSlots * (nBuckets / kSlots) = nBuckets ↔ kSlots ∣ nBuckets :=
    ⟨fun h => Dvd.intro _ h, Nat.mul_div_cancel'⟩
  rw [htile]
  refine and_congr_right fun hdvd => and_congr_left fun _ => ?_
  exact Nat.dvd_mod_iff (Nat.div_dvd_of_dvd hdvd)

/-- A thousand and twenty-four buckets and four slots. -/
theorem bucket_coverage_four_slots :
    ∃ ranges, assignBuckets 7 1024 4 = some ranges ∧
      ∀ bucket : BucketId, bucket.toNat < 1024 → ∃ r ∈ ranges, r.contains bucket = true := by
  obtain ⟨ranges, hranges, hiff⟩ := bucket_coverage_iff 7 1024 4 (by decide) (by decide) (by decide)
  exact ⟨ranges, hranges, (hiff.mpr (by decide)).1⟩

/-- Ten buckets and three slots: in view 0 no slot has bucket 9, and in view 3 one
has buckets that do not exist. -/
theorem bucket_uncovered :
    assignBuckets 0 10 3 = some [⟨0, 3⟩, ⟨3, 6⟩, ⟨6, 9⟩] ∧
      (∀ r ∈ [(⟨0, 3⟩ : BucketRange), ⟨3, 6⟩, ⟨6, 9⟩], r.contains 9 = false) ∧
      assignBuckets 3 10 3 = some [⟨9, 12⟩, ⟨2, 5⟩, ⟨5, 8⟩] ∧
      (⟨9, 12⟩ : BucketRange).contains 10 = true := by
  decide

/-! ### Disjointness -/

/-- No bucket is in the ranges of two slots. -/
def DisjointRanges (ranges : List BucketRange) : Prop :=
  ∀ (s t : ℕ) (r r' : BucketRange), s ≠ t → ranges[s]? = some r → ranges[t]? = some r' →
    ∀ bucket, ¬(r.contains bucket = true ∧ r'.contains bucket = true)

section

variable {view : View} {nBuckets kSlots : ℕ}

lemma getElem?_ranges {s : ℕ} {r : BucketRange} :
    ((List.range kSlots).map (slotRange view nBuckets kSlots))[s]? = some r ↔
      s < kSlots ∧ slotRange view nBuckets kSlots s = r := by
  rw [List.getElem?_map, Option.map_eq_some_iff]
  by_cases hs : s < kSlots <;> simp [hs]

/-- Intervals that are apart have disjoint ranges. -/
lemma disjointRanges_of_not_overflows (hn : nBuckets < 2 ^ 64) (hpos : 1 ≤ nBuckets)
    (h : ¬Overflows (2 ^ 64) nBuckets (nBuckets / kSlots) (bucketOffset view nBuckets kSlots)
      kSlots) :
    DisjointRanges ((List.range kSlots).map (slotRange view nBuckets kSlots)) := by
  have hapart : ∀ s t, s < t → t < kSlots → ∀ bucket,
      ¬((slotRange view nBuckets kSlots s).contains bucket = true ∧
        (slotRange view nBuckets kSlots t).contains bucket = true) := by
    rintro s t hst ht bucket ⟨hs, ht'⟩
    have hin := lt_of_contains hn hpos hs
    have hin' := lt_of_contains hn hpos ht'
    have hcases := rotated_apart hn (bucketOffset_lt hpos) (Nat.mul_div_le nBuckets kSlots) h hst ht
    rw [slotStart] at hin hin'
    omega
  intro s t r r' hne hr hr' bucket hboth
  obtain ⟨hs, rfl⟩ := getElem?_ranges.mp hr
  obtain ⟨ht, rfl⟩ := getElem?_ranges.mp hr'
  rcases lt_or_gt_of_ne hne with hlt | hgt
  · exact hapart s t hlt ht bucket hboth
  · exact hapart t s hgt hs bucket hboth.symm

/-- If starts overflow, two ranges have the last bucket of the first range in
view 0 in common. -/
lemma not_disjointRanges_of_overflows (hn : nBuckets < 2 ^ 64) (hpos : 1 ≤ nBuckets)
    (h : Overflows (2 ^ 64) nBuckets (nBuckets / kSlots) (bucketOffset view nBuckets kSlots)
      kSlots) :
    ¬DisjointRanges ((List.range kSlots).map (slotRange view nBuckets kSlots)) := by
  have hroom := Nat.mul_div_le nBuckets kSlots
  obtain ⟨s, t, hs, ht, hne, hsmall, hsmall'⟩ :=
    exists_small_of_overflows hn (bucketOffset_lt hpos) hroom h
  have htwo : nBuckets / kSlots + nBuckets / kSlots ≤ nBuckets := by
    have hone := mul_add_le (s := 1) hroom (by omega)
    rwa [Nat.one_mul] at hone
  have hbucket : (UInt64.ofNat (nBuckets / kSlots - 1)).toNat = nBuckets / kSlots - 1 := by
    rw [UInt64.toNat_ofNat', Nat.mod_eq_of_lt (by omega)]
  have hcontains : ∀ s, slotStart view nBuckets kSlots s < nBuckets / kSlots →
      (slotRange view nBuckets kSlots s).contains
        (UInt64.ofNat (nBuckets / kSlots - 1)) = true := by
    intro s hsmall
    rw [contains_iff_of_lt hn hpos (by omega), hbucket]
    omega
  intro hdisjoint
  exact hdisjoint s t _ _ hne (getElem?_ranges.mpr ⟨hs, rfl⟩) (getElem?_ranges.mpr ⟨ht, rfl⟩) _
    ⟨hcontains s hsmall, hcontains t hsmall'⟩

end

/-- **Disjointness.** No bucket is in the ranges of two slots exactly if it does
not happen that the start of one slot, before it is reduced, is beyond the buckets
and that of another beyond a word. -/
theorem bucket_disjoint_iff (view : View) (nBuckets kSlots : ℕ) (hn : nBuckets < 2 ^ 64)
    (hpos : 1 ≤ nBuckets) (hk : 1 ≤ kSlots) :
    ∃ ranges, assignBuckets view nBuckets kSlots = some ranges ∧
      (DisjointRanges ranges ↔
        let offset := view.toNat * (nBuckets / kSlots) % 2 ^ 64 % nBuckets
        ¬∃ s t, s < kSlots ∧ t < kSlots ∧ nBuckets ≤ offset + s * (nBuckets / kSlots) ∧
          offset + s * (nBuckets / kSlots) < 2 ^ 64 ∧
          2 ^ 64 ≤ offset + t * (nBuckets / kSlots)) := by
  refine ⟨_, assignBuckets_eq hk hpos, ?_, disjointRanges_of_not_overflows hn hpos⟩
  exact fun hdisjoint hover => not_disjointRanges_of_overflows hn hpos hover hdisjoint

/-- Starts do not overflow if there are at most `2 ^ 63` buckets. -/
lemma bucketRanges_disjoint (view : View) {nBuckets kSlots : ℕ} (hn : nBuckets ≤ 2 ^ 63)
    (hpos : 1 ≤ nBuckets) :
    DisjointRanges ((List.range kSlots).map (slotRange view nBuckets kSlots)) := by
  refine disjointRanges_of_not_overflows (by omega) hpos ?_
  rintro ⟨-, t, -, ht, -, -, hover⟩
  have hoffset : bucketOffset view nBuckets kSlots < nBuckets := bucketOffset_lt hpos
  have hroom : t * (nBuckets / kSlots) ≤ nBuckets :=
    (Nat.le_add_right _ _).trans (mul_add_le (Nat.mul_div_le nBuckets kSlots) ht)
  omega

/-- Ten buckets and three slots, in view 3. -/
theorem bucket_disjoint_ten :
    ∃ ranges, assignBuckets 3 10 3 = some ranges ∧ DisjointRanges ranges := by
  obtain ⟨ranges, hranges, hiff⟩ := bucket_disjoint_iff 3 10 3 (by decide) (by decide) (by decide)
  refine ⟨ranges, hranges, hiff.mpr ?_⟩
  rintro offset ⟨-, t, -, ht, -, -, hover⟩
  have hoffset : offset < 10 := Nat.mod_lt _ (by decide)
  omega

/-- Three slots of `2 ^ 62` buckets each. In view 2 the first starts at `2 ^ 63`;
the second starts anew at the last bucket, the third at the last word. -/
theorem bucket_shared :
    assignBuckets 2 (3 * 2 ^ 62) 3 =
      some [⟨2 ^ 63, 3 * 2 ^ 62⟩, ⟨0, 2 ^ 62⟩, ⟨0, 2 ^ 62⟩] ∧
    (⟨0, 2 ^ 62⟩ : BucketRange).contains 0 = true := by
  decide +kernel

end StablecoinSystem.ControlPlane
