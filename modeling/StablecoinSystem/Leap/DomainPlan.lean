import Mathlib.Data.Finset.Disjoint
import StablecoinSystem.Ledger.Tx
import StablecoinSystem.Support.Tiling

/-!
`domain_plan.rs`: a sorted block is cut into segments of one conflict domain and
at most `l_max` transactions.

The two nested `while` loops are `extendSegment`, which moves the end of a
segment, and `segmentsFrom`, which cuts off one segment after the other.
`extendSegment_spec` says where the inner loop stops and why; the segments then
tile the block by induction over the outer loop (`segmentsFrom_tiles`), and
`txn_to_segment` is the inverse of the tiling (`txnToSegment_eq`).
-/

namespace StablecoinSystem

/-- `DomainSegment`, the transactions `start..stop` of one conflict domain; a
segment is never empty. -/
structure DomainSegment where
  start : ℕ
  stop : ℕ
  domain : ℕ
  writeKeys : Finset ℕ
  nonempty : start < stop

/-- `DomainPlan`: `parBound[j]` tells whether segment `j` may run in parallel with
the one before it. -/
structure DomainPlan where
  segments : List DomainSegment
  parBound : List Bool

/-- `collect_write_accounts`: the conflict domain, and `u64::MAX` for the total
supply; the sender is left out on purpose. -/
def collectWriteAccounts (keys : Finset ℕ) (tx : StablecoinTx) : Finset ℕ :=
  match tx.txType with
  | .transfer _ receiver _ => insert receiver keys
  | .mint target _ => insert (2 ^ 64 - 1) (insert target keys)
  | .burn source _ => insert (2 ^ 64 - 1) (insert source keys)
  | .initBalance account _ => insert account keys

/-! ### The loops of `build_domain_plan` -/

/-- The inner loop: the end of the segment moves on while the next transaction
has the domain of the segment and the segment is shorter than `l_max`. -/
def extendSegment (txs : List StablecoinTx) (lMax domain segStart segEnd : ℕ) : ℕ :=
  if h : segEnd < txs.length then
    if txs[segEnd].conflictDomain = domain ∧ segEnd - segStart < lMax then
      extendSegment txs lMax domain segStart (segEnd + 1)
    else segEnd
  else segEnd
termination_by txs.length - segEnd

lemma le_extendSegment (txs : List StablecoinTx) (lMax domain segStart segEnd : ℕ) :
    segEnd ≤ extendSegment txs lMax domain segStart segEnd := by
  fun_induction extendSegment txs lMax domain segStart segEnd with
  | case1 segEnd h hmore ih => omega
  | case2 segEnd h hstop => exact Nat.le_refl _
  | case3 segEnd h => exact Nat.le_refl _

/-- The outer loop: one segment is cut off, the next one starts where it ends. -/
def segmentsFrom (txs : List StablecoinTx) (lMax segStart : ℕ) : List DomainSegment :=
  if h : segStart < txs.length then
    let domain := txs[segStart].conflictDomain
    let segEnd := extendSegment txs lMax domain segStart (segStart + 1)
    { start := segStart
      stop := segEnd
      domain := domain
      writeKeys := ((txs.take segEnd).drop segStart).foldl collectWriteAccounts ∅
      nonempty := le_extendSegment txs lMax domain segStart (segStart + 1) } ::
      segmentsFrom txs lMax segEnd
  else []
termination_by txs.length - segStart
decreasing_by
  have := le_extendSegment txs lMax txs[segStart].conflictDomain segStart (segStart + 1)
  omega

/-- The entry of `par_bound` at the boundary of two segments: a domain that was
only split at `l_max` is parallel, two domains are if they write nothing in
common. -/
def boundary (previous segment : DomainSegment) : Bool :=
  if segment.domain = previous.domain then true
  else decide (Disjoint segment.writeKeys previous.writeKeys)

/-- The loop that fills `par_bound`; the first entry stays `false`. -/
def parBounds : List DomainSegment → List Bool
  | [] => []
  | segment :: rest => false :: List.zipWith boundary (segment :: rest) rest

/-- `build_domain_plan`. -/
def buildDomainPlan (txs : List StablecoinTx) (lMax : ℕ) : DomainPlan where
  segments := segmentsFrom txs lMax 0
  parBound := parBounds (segmentsFrom txs lMax 0)

namespace DomainPlan

/-- `DomainPlan::segment_bounds`. -/
def segmentBounds (plan : DomainPlan) : List (ℕ × ℕ × Bool) :=
  plan.segments.zipIdx.map fun (segment, i) =>
    (segment.start, segment.stop, plan.parBound[i]?.getD false)

/-- `DomainPlan::txn_to_segment`. -/
def txnToSegment (plan : DomainPlan) (numTxns : ℕ) : List ℕ :=
  fillTable DomainSegment.start DomainSegment.stop plan.segments numTxns

@[simp] lemma length_segmentBounds (plan : DomainPlan) :
    plan.segmentBounds.length = plan.segments.length := by
  simp [segmentBounds]

end DomainPlan

/-! ### Where the inner loop stops -/

/-- The inner loop leaves the end within the block and the length within
`l_max`, every transaction it passes has the domain of the segment, and it stops
at a transaction of that domain only because the segment is full. -/
structure Extended (txs : List StablecoinTx) (lMax domain segStart segEnd stop : ℕ) : Prop where
  le_length : stop ≤ txs.length
  length_le : stop - segStart ≤ max lMax (segEnd - segStart)
  same_domain : ∀ i tx, segEnd ≤ i → i < stop → txs[i]? = some tx → tx.conflictDomain = domain
  full : ∀ tx, txs[stop]? = some tx → tx.conflictDomain = domain →
    stop - segStart = max lMax (segEnd - segStart)

lemma extendSegment_spec {txs : List StablecoinTx} (lMax domain segStart : ℕ) {segEnd : ℕ}
    (hend : segEnd ≤ txs.length) :
    Extended txs lMax domain segStart segEnd (extendSegment txs lMax domain segStart segEnd) := by
  fun_induction extendSegment txs lMax domain segStart segEnd with
  | case1 segEnd h hmore ih =>
      obtain ⟨hle, hlen, hsame, hfull⟩ := ih h
      have hstep : max lMax (segEnd + 1 - segStart) = max lMax (segEnd - segStart) := by omega
      rw [hstep] at hlen hfull
      refine ⟨hle, hlen, fun i tx hi hstop htx => ?_, hfull⟩
      rcases Nat.eq_or_lt_of_le hi with rfl | hi
      · rw [List.getElem?_eq_getElem h, Option.some_inj] at htx
        rw [← htx, hmore.1]
      · exact hsame i tx hi hstop htx
  | case2 segEnd h hstop =>
      refine ⟨hend, Nat.le_max_right _ _, fun i tx hi hlt => absurd hlt (Nat.not_lt.mpr hi),
        fun tx htx hdomain => ?_⟩
      rw [List.getElem?_eq_getElem h, Option.some_inj] at htx
      rw [htx] at hstop
      have : ¬ segEnd - segStart < lMax := fun hlt => hstop ⟨hdomain, hlt⟩
      omega
  | case3 segEnd h =>
      refine ⟨hend, Nat.le_max_right _ _, fun i tx hi hlt => absurd hlt (Nat.not_lt.mpr hi),
        fun tx htx _ => ?_⟩
      rw [List.getElem?_eq_none (Nat.not_lt.mp h)] at htx
      cases htx

/-! ### The segments -/

/-- What every segment of a plan satisfies. -/
structure DomainSegment.Fits (txs : List StablecoinTx) (lMax : ℕ) (segment : DomainSegment) :
    Prop where
  length_le : segment.stop - segment.start ≤ max lMax 1
  same_domain : ∀ i tx, segment.start ≤ i → i < segment.stop → txs[i]? = some tx →
    tx.conflictDomain = segment.domain
  full : ∀ tx, txs[segment.stop]? = some tx → tx.conflictDomain = segment.domain →
    segment.stop - segment.start = max lMax 1

lemma segmentsFrom_tiles {txs : List StablecoinTx} (lMax : ℕ) {segStart : ℕ}
    (hstart : segStart ≤ txs.length) :
    Tiles DomainSegment.start DomainSegment.stop segStart (segmentsFrom txs lMax segStart)
      txs.length := by
  fun_induction segmentsFrom txs lMax segStart with
  | case1 segStart h domain segEnd ih =>
      exact .cons rfl (le_extendSegment ..)
        (ih (extendSegment_spec lMax domain segStart h).le_length)
  | case2 segStart h =>
      rw [Nat.le_antisymm hstart (Nat.not_lt.mp h)]
      exact .nil _

lemma segmentsFrom_fits (txs : List StablecoinTx) (lMax segStart : ℕ) :
    ∀ segment ∈ segmentsFrom txs lMax segStart, segment.Fits txs lMax := by
  fun_induction segmentsFrom txs lMax segStart with
  | case1 segStart h domain segEnd ih =>
      have hone : segStart + 1 - segStart = 1 := Nat.add_sub_cancel_left _ _
      obtain ⟨-, hlen, hsame, hfull⟩ :=
        extendSegment_spec lMax domain segStart (Nat.succ_le_of_lt h)
      rw [Nat.succ_eq_add_one, hone] at hlen hfull
      refine List.forall_mem_cons.mpr ⟨⟨hlen, fun i tx hi hstop htx => ?_, hfull⟩, ih⟩
      -- the first transaction gives the segment its domain
      rcases Nat.eq_or_lt_of_le hi with rfl | hi
      · rw [List.getElem?_eq_getElem h, Option.some_inj] at htx
        rw [← htx]
      · exact hsame i tx hi hstop htx
  | case2 segStart h => simp

/-- Two segments of one domain follow each other only where the first is full:
the second starts with a transaction of its domain. -/
lemma segmentsFrom_full {txs : List StablecoinTx} (lMax : ℕ) {segStart : ℕ}
    (hstart : segStart ≤ txs.length) :
    (segmentsFrom txs lMax segStart).IsChain fun first second =>
      first.domain = second.domain → first.stop - first.start = max lMax 1 := by
  have htiles := segmentsFrom_tiles lMax hstart
  have hfits := segmentsFrom_fits txs lMax segStart
  refine htiles.adjacent.imp_of_mem_imp fun first second hfirst hsecond hadj hdomain => ?_
  have hbound : second.start < txs.length :=
    Nat.lt_of_lt_of_le second.nonempty (htiles.bounds hsecond).2.2
  obtain ⟨tx, hget⟩ : ∃ tx, txs[second.start]? = some tx :=
    ⟨_, List.getElem?_eq_getElem hbound⟩
  have hnext := (hfits second hsecond).same_domain _ tx (Nat.le_refl _) second.nonempty hget
  rw [← hadj] at hget
  exact (hfits first hfirst).full tx hget (by rw [hnext, hdomain])

lemma length_parBounds (segments : List DomainSegment) :
    (parBounds segments).length = segments.length := by
  cases segments <;> simp [parBounds]

/-! ### The plan -/

namespace DomainPlan

/-- The number of the segment a transaction lies in, the number of segments if it
lies in none. -/
def segmentOf (plan : DomainPlan) (i : ℕ) : ℕ :=
  plan.segments.findIdx (covers DomainSegment.start DomainSegment.stop i)

lemma segmentOf_le (plan : DomainPlan) (i : ℕ) : plan.segmentOf i ≤ plan.segments.length :=
  List.findIdx_le_length

end DomainPlan

/-- The segments of the plan tile the block. -/
lemma buildDomainPlan_segments (txs : List StablecoinTx) (lMax : ℕ) :
    Tiles DomainSegment.start DomainSegment.stop 0 (buildDomainPlan txs lMax).segments
      txs.length :=
  segmentsFrom_tiles lMax (Nat.zero_le _)

/-- A table of any length holds the segment of each of its transactions. -/
lemma buildDomainPlan_txnToSegment (txs : List StablecoinTx) (lMax numTxns : ℕ) :
    (buildDomainPlan txs lMax).txnToSegment numTxns =
      (List.range numTxns).map (buildDomainPlan txs lMax).segmentOf :=
  (buildDomainPlan_segments txs lMax).fillTable_eq numTxns

lemma buildDomainPlan_segmentOf_mono (txs : List StablecoinTx) (lMax : ℕ) :
    Monotone (buildDomainPlan txs lMax).segmentOf :=
  fun _ _ hle => (buildDomainPlan_segments txs lMax).findIdx_mono (Nat.zero_le _) hle

/-- What a plan has to be for a block `txs`: segments that tile the block, each
of one domain and as long as `l_max` allows, an entry of `par_bound` for each,
and a table that is the inverse of the tiling. -/
structure DomainPlan.For (txs : List StablecoinTx) (lMax : ℕ) (plan : DomainPlan) : Prop where
  tiles : Tiles DomainSegment.start DomainSegment.stop 0 plan.segments txs.length
  same_domain : ∀ segment ∈ plan.segments, ∀ i tx, segment.start ≤ i → i < segment.stop →
    txs[i]? = some tx → tx.conflictDomain = segment.domain
  length_le : ∀ segment ∈ plan.segments, segment.stop - segment.start ≤ max lMax 1
  full : plan.segments.IsChain fun first second =>
    first.domain = second.domain → first.stop - first.start = max lMax 1
  parBound_length : plan.parBound.length = plan.segments.length
  table_length : (plan.txnToSegment txs.length).length = txs.length
  table_iff : ∀ i j : ℕ, (plan.txnToSegment txs.length)[i]? = some j ↔
    ∃ segment, plan.segments[j]? = some segment ∧ segment.start ≤ i ∧ i < segment.stop
  table_sorted : (plan.txnToSegment txs.length).Pairwise (· ≤ ·)
  table_lt : ∀ j ∈ plan.txnToSegment txs.length, j < plan.segments.length

/-- **The plan tiles the block**, for every block and every `l_max`. -/
theorem buildDomainPlan_for (txs : List StablecoinTx) (lMax : ℕ) :
    (buildDomainPlan txs lMax).For txs lMax := by
  have htiles := buildDomainPlan_segments txs lMax
  have hfits := segmentsFrom_fits txs lMax 0
  have htable := buildDomainPlan_txnToSegment txs lMax txs.length
  refine ⟨htiles, fun segment hmem => (hfits segment hmem).same_domain,
    fun segment hmem => (hfits segment hmem).length_le, segmentsFrom_full lMax (Nat.zero_le _),
    length_parBounds _, ?_, fun i j => ?_, ?_, ?_⟩
  · rw [htable, List.length_map, List.length_range]
  · rw [htable, List.getElem?_map, Option.map_eq_some_iff]
    constructor
    · rintro ⟨k, hk, rfl⟩
      obtain ⟨hi, rfl⟩ : i < txs.length ∧ i = k := by
        simpa [List.getElem?_eq_some_iff] using hk
      have hlt := htiles.findIdx_lt_length (Nat.zero_le i) hi
      exact ⟨_, List.getElem?_eq_getElem hlt,
        (htiles.findIdx_eq_iff (Nat.zero_le i) hlt).mp rfl⟩
    · rintro ⟨segment, hseg, hcovers⟩
      obtain ⟨hj, rfl⟩ := List.getElem?_eq_some_iff.mp hseg
      have hi : i < txs.length :=
        Nat.lt_of_lt_of_le hcovers.2 (htiles.bounds (List.getElem_mem hj)).2.2
      exact ⟨i, List.getElem?_range hi,
        (htiles.findIdx_eq_iff (Nat.zero_le i) hj).mpr hcovers⟩
  · rw [htable]
    exact (List.pairwise_lt_range.imp Nat.le_of_lt).map _
      fun _ _ hle => buildDomainPlan_segmentOf_mono txs lMax hle
  · rw [htable, List.forall_mem_map]
    intro i hi
    exact htiles.findIdx_lt_length (Nat.zero_le i) (List.mem_range.mp hi)

end StablecoinSystem
