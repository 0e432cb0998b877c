import StablecoinSystem.ControlPlane.Collector
import StablecoinSystem.Support.Chunks

/-!
Slot consensus (`control_plane/slot_layer.rs`, `control_plane/anti_duplication.rs`).

`run_slot_consensus` deals the available certificates out to the slots, makes a
proposal for each and collects the votes of the committee on it. A panic is
`none`: the bucket arithmetic divides by `k_slots` and `n_buckets`. That
arithmetic wraps, as in a build without overflow checks; numbers of certificates
and of slots are natural numbers.

* `createProposal_valid`: a proposal made for its slot's proposer passes
  validation;
* `collectVotes_eq_some`: the votes of the committee reach a quorum;
* `runSlotConsensus_spec`: every slot has its certificate, no digest stands in two
  of them, and all of them are dealt out unless there are more than the slots can
  hold.
-/

namespace StablecoinSystem.ControlPlane

/-- `MP3BFTConfig`, the parameters that slot consensus uses. -/
structure MP3BFTConfig where
  kSlots : ℕ
  nBuckets : ℕ
  mMax : ℕ
  deriving DecidableEq

/-! ### Buckets -/

/-- `assign_buckets`. -/
def assignBuckets (view : View) (nBuckets kSlots : ℕ) : Option (List BucketRange) :=
  if kSlots = 0 ∨ nBuckets = 0 then none
  else
    let bucketsPerSlot := nBuckets / kSlots
    let offset := view.toNat * bucketsPerSlot % 2 ^ 64 % nBuckets
    some ((List.range kSlots).map fun s =>
      let start := (offset + s * bucketsPerSlot) % 2 ^ 64 % nBuckets
      ⟨UInt64.ofNat start, UInt64.ofNat (start + bucketsPerSlot)⟩)

/-- The range of a slot, `ranges[slot as usize % ranges.len()]`. -/
def bucketRangeOf (view : View) (slot : Slot) (config : MP3BFTConfig) : Option BucketRange := do
  let ranges ← assignBuckets view config.nBuckets config.kSlots
  ranges[slot.toNat % ranges.length]?

/-- `check_bucket_compliance`. -/
def checkBucketCompliance (proposal : BlockletProposal) (assignedRange : BucketRange) : Bool :=
  proposal.bucketRange == assignedRange

/-- The loop of `check_intra_slot_unique` over the digests still to be seen. -/
def uniqueFrom (seen : List DigestBytes) : List DigestBytes → Bool
  | [] => true
  | digest :: rest => if digest ∈ seen then false else uniqueFrom (digest :: seen) rest

/-- `check_intra_slot_unique`. -/
def checkIntraSlotUnique (proposal : BlockletProposal) : Bool := uniqueFrom [] proposal.availCerts

/-! ### Proposals and votes -/

variable (hash : List UInt8 → DigestBytes)

/-- `u64::from_le_bytes`, as the `usize` an index is computed from. -/
def fromLeBytes (bytes : List UInt8) : ℕ := bytes.foldr (fun b n => b.toNat + 256 * n) 0

/-- The proposer of a slot: a member picked by the hash of view and slot. -/
def slotProposer (committee : Committee) (view : View) (slot : Slot) : NodeId :=
  let h := fromLeBytes ((hash (toLeBytes view ++ toLeBytes slot)).bytes.take 8)
  committee.nodeIds.get ⟨h % committee.nodeIds.length,
    Nat.mod_lt _ (List.length_pos_iff.mpr committee.nonempty)⟩

/-- `BlockletProposal::compute_digest`. -/
def BlockletProposal.computeDigest (view : View) (slot : Slot) (proposer : NodeId)
    (certs : List DigestBytes) : DigestBytes :=
  hash (toLeBytes view ++ toLeBytes slot ++ toLeBytes proposer ++
    certs.flatMap DigestBytes.bytes)

/-- `create_proposal`. -/
def createProposal (view : View) (slot : Slot) (proposer : NodeId)
    (availCerts : List DigestBytes) (config : MP3BFTConfig) : Option BlockletProposal := do
  let bucketRange ← bucketRangeOf view slot config
  let certs := availCerts.take config.mMax
  return { view := view
           slot := slot
           proposer := proposer
           availCerts := certs
           bucketRange := bucketRange
           digest := BlockletProposal.computeDigest hash view slot proposer certs }

/-- `validate_proposal`. -/
def validateProposal (proposal : BlockletProposal) (config : MP3BFTConfig)
    (committee : Committee) : Option Bool :=
  if proposal.proposer ≠ slotProposer hash committee proposal.view proposal.slot then some false
  else do
    let assigned ← bucketRangeOf proposal.view proposal.slot config
    if !checkBucketCompliance proposal assigned then return false
    else if !checkIntraSlotUnique proposal then return false
    else if config.mMax < proposal.availCerts.length then return false
    else return true

/-- `vote_on_proposal`. -/
def voteOnProposal (proposal : BlockletProposal) (voter : NodeId) : SlotVote where
  view := proposal.view
  slot := proposal.slot
  proposalDigest := proposal.digest
  voter := voter
  signature := Signature.sign hash voter proposal.digest.bytes

/-! ### `run_slot_consensus` -/

/-- The loop over the voters of one slot, up to the first certificate. -/
def collectVotes (proposal : BlockletProposal) (config : MP3BFTConfig) (committee : Committee) :
    SlotCollector → List NodeId → Option (Option SlotQC)
  | _, [] => some none
  | collector, voter :: voters => do
      if ← validateProposal hash proposal config committee then
        match collector.addVote (voteOnProposal hash proposal voter) with
        | (_, some qc) => return some qc
        | (collector, none) => collectVotes proposal config committee collector voters
      else collectVotes proposal config committee collector voters

/-- `certs_per_slot`. -/
def certsPerSlot (config : MP3BFTConfig) (availableCerts : List DigestBytes) : ℕ :=
  if 0 < config.kSlots then (availableCerts.length + config.kSlots - 1) / config.kSlots
  else availableCerts.length

/-- One iteration over the slots. -/
def runSlot (view : View) (config : MP3BFTConfig) (committee : Committee)
    (availableCerts : List DigestBytes) (slot : ℕ) : Option (Option SlotQC) := do
  let start := slot * certsPerSlot config availableCerts
  let stop := min (start + certsPerSlot config availableCerts) availableCerts.length
  let slotCerts :=
    if start < availableCerts.length then (availableCerts.take stop).drop start else []
  let proposerId := slotProposer hash committee view (UInt64.ofNat slot)
  let proposal ← createProposal hash view (UInt64.ofNat slot) proposerId slotCerts config
  let collector := (SlotCollector.new view (UInt64.ofNat slot)
    committee.quorumThreshold).setProposal proposal
  collectVotes hash proposal config committee collector committee.nodeIds

/-- `run_slot_consensus`. -/
def runSlotConsensus (view : View) (config : MP3BFTConfig) (committee : Committee)
    (availableCerts : List DigestBytes) : Option (List SlotQC) := do
  let found ← (List.range config.kSlots).mapM (runSlot hash view config committee availableCerts)
  return found.reduceOption

/-! ### Proposals are valid -/

/-- Under a configuration that can be divided by, every slot has a range. -/
lemma bucketRangeOf_isSome {config : MP3BFTConfig} (hk : 1 ≤ config.kSlots)
    (hn : 1 ≤ config.nBuckets) (view : View) (slot : Slot) :
    ∃ range, bucketRangeOf view slot config = some range := by
  rw [bucketRangeOf, assignBuckets, if_neg (by omega)]
  simp only [Option.bind_eq_bind, Option.bind_some, List.length_map, List.length_range]
  exact ⟨_, List.getElem?_eq_getElem (by simpa using Nat.mod_lt _ hk)⟩

lemma uniqueFrom_of_nodup {seen certs : List DigestBytes} (hcerts : certs.Nodup)
    (hseen : ∀ digest ∈ certs, digest ∉ seen) : uniqueFrom seen certs = true := by
  induction certs generalizing seen with
  | nil => rfl
  | cons digest certs ih =>
      obtain ⟨hnew, hcerts⟩ := List.nodup_cons.mp hcerts
      obtain ⟨hdigest, hrest⟩ := List.forall_mem_cons.mp hseen
      rw [uniqueFrom, if_neg hdigest]
      refine ih hcerts fun other hother hmem => ?_
      rcases List.mem_cons.mp hmem with rfl | hmem
      · exact hnew hother
      · exact hrest other hother hmem

/-- **A proposal made for its slot's proposer is valid**: the validator computes
the same proposer and the same range, and finds no more certificates than the
proposer left. -/
lemma createProposal_valid {config : MP3BFTConfig} (hk : 1 ≤ config.kSlots)
    (hn : 1 ≤ config.nBuckets) (committee : Committee) (view : View) (slot : Slot)
    {certs : List DigestBytes} (hcerts : certs.Nodup) :
    ∃ proposal, createProposal hash view slot (slotProposer hash committee view slot) certs config =
        some proposal ∧ proposal.view = view ∧ proposal.slot = slot ∧
      proposal.availCerts = certs.take config.mMax ∧
      validateProposal hash proposal config committee = some true := by
  obtain ⟨range, hrange⟩ := bucketRangeOf_isSome hk hn view slot
  have hunique : uniqueFrom [] (certs.take config.mMax) = true :=
    uniqueFrom_of_nodup (hcerts.sublist (List.take_sublist _ _)) fun _ _ => List.not_mem_nil
  refine ⟨_, by rw [createProposal, hrange]; rfl, rfl, rfl, rfl, ?_⟩
  simp [validateProposal, hrange, checkBucketCompliance, checkIntraSlotUnique, hunique]

/-! ### Votes reach a quorum -/

lemma quorumThreshold_le_size (committee : Committee) :
    committee.quorumThreshold ≤ committee.size := by
  have hpos := committee.size_pos
  rw [Committee.quorumThreshold]
  omega

variable {hash}

/-- A collector that holds the votes of `before` and the proposal certifies it
with the first votes that make a quorum. -/
lemma collectVotes_eq_some {proposal : BlockletProposal} {config : MP3BFTConfig}
    {committee : Committee} (hvalid : validateProposal hash proposal config committee = some true)
    {n : ℕ} (before voters : List NodeId) (hnodup : (before ++ voters).Nodup)
    (hbefore : before.length < n) (hlen : n ≤ (before ++ voters).length) :
    collectVotes hash proposal config committee
        { key := (proposal.view, proposal.slot)
          subject := some proposal
          votes := before.map (voteOnProposal hash proposal)
          quorumThreshold := n } voters =
      some (some (slotBallot.certify (proposal.view, proposal.slot) proposal
        (((before ++ voters).take n).map (voteOnProposal hash proposal)))) := by
  induction voters generalizing before with
  | nil =>
      rw [List.append_nil] at hlen
      omega
  | cons voter voters ih =>
      have hnew : voter ∉ before := fun hmem =>
        List.disjoint_of_nodup_append hnodup hmem List.mem_cons_self
      have happend : before ++ voter :: voters = before ++ [voter] ++ voters := by simp
      rw [collectVotes, hvalid, SlotCollector.addVote, Collector.addVote_of_new rfl]
      · by_cases hquorum : n ≤ before.length + 1
        · -- this vote makes the quorum
          have htake : (before ++ voter :: voters).take n = before ++ [voter] := by
            rw [happend]
            exact List.take_left' (by simp; omega)
          simp [hquorum, htake]
        -- the vote is kept and the loop goes on
        · have hrest := ih (before ++ [voter]) (happend ▸ hnodup) (by simp; omega) (happend ▸ hlen)
          rw [List.map_append, ← happend] at hrest
          simpa [hquorum] using hrest
      · simpa [slotBallot, voteOnProposal] using hnew

/-- **One slot**: its certificate is for the proposal of its chunk. -/
lemma runSlot_spec (hash : List UInt8 → DigestBytes) {config : MP3BFTConfig}
    (hk : 1 ≤ config.kSlots) (hn : 1 ≤ config.nBuckets) (view : View) (committee : Committee)
    {certs : List DigestBytes} (hcerts : certs.Nodup) (slot : ℕ) :
    ∃ qc, runSlot hash view config committee certs slot = some (some qc) ∧
      qc.slot = UInt64.ofNat slot ∧ qc.verify committee.quorumThreshold = true ∧
      qc.proposal.availCerts =
        (chunk ((certs.length + config.kSlots - 1) / config.kSlots) certs slot).take
          config.mMax := by
  have hsize : certsPerSlot config certs = (certs.length + config.kSlots - 1) / config.kSlots :=
    if_pos hk
  obtain ⟨proposal, hcreate, hview, hslot, havail, hvalid⟩ := createProposal_valid hash hk hn
    committee view (UInt64.ofNat slot) (hcerts.sublist (chunk_sublist (certsPerSlot config certs)
      certs slot))
  have hquorum := quorumThreshold_le_size committee
  -- all members vote, and those up to the quorum end up in the certificate
  have hcollect := collectVotes_eq_some hvalid [] committee.nodeIds
    (committee.sorted.imp UInt64.ne_of_lt) (Nat.succ_pos _) hquorum
  refine ⟨slotBallot.certify (proposal.view, proposal.slot) proposal
    ((committee.nodeIds.take committee.quorumThreshold).map (voteOnProposal hash proposal)),
    ?_, hslot, SlotQC.verify_iff.mpr ⟨?_, ?_⟩, ?_⟩
  · rw [runSlot]
    simp only [slice_eq_chunk, hcreate, Option.bind_eq_bind, Option.bind_some]
    rw [← hview, ← hslot]
    exact hcollect
  · rw [Committee.size] at hquorum
    simp [slotBallot, hquorum]
  · exact List.forall_mem_map.mpr fun voter _ => ⟨rfl, rfl, rfl⟩
  · rw [← hsize]
    exact havail

/-! ### All slots -/

lemma mapM_eq_some_of_forall {α β : Type} {f : α → Option β} {g : α → β} (l : List α)
    (h : ∀ a, f a = some (g a)) : l.mapM f = some (l.map g) := by
  induction l with
  | nil => rfl
  | cons a l ih => simp [List.mapM_cons, h, ih]

/-- **Slot consensus.** Every slot has a verified certificate, in order. No
digest is proposed in two slots, and all digests are proposed, in order, exactly
if there are no more than the slots can hold. -/
theorem runSlotConsensus_spec (hash : List UInt8 → DigestBytes) (view : View)
    (config : MP3BFTConfig) (committee : Committee) (certs : List DigestBytes)
    (hk : 1 ≤ config.kSlots) (hn : 1 ≤ config.nBuckets) (hcerts : certs.Nodup) :
    ∃ qcs, runSlotConsensus hash view config committee certs = some qcs ∧
      qcs.map SlotQC.slot = (List.range config.kSlots).map UInt64.ofNat ∧
      (∀ qc ∈ qcs, qc.verify committee.quorumThreshold = true) ∧
      qcs.Pairwise (fun qc qc' => qc.proposal.availCerts.Disjoint qc'.proposal.availCerts) ∧
      (qcs.flatMap (fun qc => qc.proposal.availCerts) = certs ↔
        certs.length ≤ config.kSlots * config.mMax) := by
  choose qcOf hrun hslot hverify havail using
    runSlot_spec hash hk hn view committee hcerts
  refine ⟨(List.range config.kSlots).map qcOf, ?_, ?_, ?_, ?_, ?_⟩
  · rw [runSlotConsensus, mapM_eq_some_of_forall _ hrun]
    change some (List.filterMap id _) = _
    rw [List.filterMap_map]
    exact congrArg some (congrFun List.filterMap_eq_map _)
  · rw [List.map_map]
    exact List.map_congr_left fun slot _ => hslot slot
  · exact List.forall_mem_map.mpr fun slot _ => hverify slot
  -- the chunks of a list without repetitions are disjoint, and proposals cut them short
  · have hchunks := pairwise_disjoint_chunk ((certs.length + config.kSlots - 1) / config.kSlots)
      hcerts config.kSlots
    refine List.pairwise_map.mpr (hchunks.imp fun {slot slot'} hdisj => ?_)
    rw [havail, havail]
    exact List.disjoint_of_subset_left (List.take_subset _ _)
      (List.disjoint_of_subset_right (List.take_subset _ _) hdisj)
  · rw [List.flatMap_map, ← flatMap_chunk_take_eq_iff hk]
    simp only [havail]

/-- Three digests in two slots of two, and four nodes. -/
theorem runSlotConsensus_three :
    let certs := [[1], [2], [3]].map Protocol.polynomialHash
    ∃ qcs, runSlotConsensus Protocol.polynomialHash 3 ⟨2, 16, 2⟩ Protocol.fourNodes.committee certs =
      some qcs ∧ qcs.map SlotQC.slot = [0, 1] ∧
        qcs.flatMap (fun qc => qc.proposal.availCerts) = certs := by
  intro certs
  obtain ⟨qcs, hrun, hslots, -, -, hall⟩ := runSlotConsensus_spec Protocol.polynomialHash 3
    ⟨2, 16, 2⟩ Protocol.fourNodes.committee certs (by decide) (by decide) (by decide +kernel)
  exact ⟨qcs, hrun, hslots, hall.mpr (by decide)⟩

end StablecoinSystem.ControlPlane
