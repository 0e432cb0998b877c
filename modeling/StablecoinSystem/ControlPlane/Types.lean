import Mathlib.Data.Finset.Card
import Mathlib.Data.List.Nodup
import Mathlib.Data.UInt

/-!
The committee, headers, votes and certificates of the control plane
(`config.rs`, `types.rs`).

SHA-256 is a parameter `hash` on byte strings. Numbers that are hashed have the
width they have in the source; a count of votes is a natural number. A committee
is not empty: the source panics on an empty one when it looks for a leader.
-/

namespace StablecoinSystem.ControlPlane

abbrev NodeId := UInt64

abbrev View := UInt64

abbrev Height := UInt64

abbrev Slot := UInt64

abbrev BucketId := UInt64

/-- `to_le_bytes` of a `u64`. -/
def toLeBytes (n : UInt64) : List UInt8 :=
  (List.range 8).map fun i => UInt8.ofNat (n.toNat / 256 ^ i)

/-- `DigestBytes`. -/
structure DigestBytes where
  bytes : List UInt8
  length_eq : bytes.length = 32
  deriving DecidableEq

/-- `Signature`: the signer and the hash of what is signed. -/
structure Signature where
  signer : NodeId
  digest : DigestBytes
  deriving DecidableEq

/-- `Signature::sign`. -/
def Signature.sign (hash : List UInt8 → DigestBytes) (nodeId : NodeId) (data : List UInt8) :
    Signature :=
  ⟨nodeId, hash data⟩

/-! ### The committee -/

/-- `Committee`: the ids of the authorities, in the order of the `BTreeMap`. -/
structure Committee where
  nodeIds : List NodeId
  sorted : nodeIds.Pairwise (· < ·)
  nonempty : nodeIds ≠ []

namespace Committee

variable (committee : Committee)

def size : ℕ := committee.nodeIds.length

def quorumThreshold : ℕ := 2 * committee.size / 3 + 1

def maxFaults : ℕ := (committee.size - 1) / 3

/-- The leader of a view, in turn. -/
def leader (view : View) : NodeId :=
  committee.nodeIds.get ⟨view.toNat % committee.nodeIds.length,
    Nat.mod_lt _ (List.length_pos_iff.mpr committee.nonempty)⟩

/-- The members, as a set. -/
def members : Finset NodeId := committee.nodeIds.toFinset

lemma card_members : committee.members.card = committee.size :=
  List.toFinset_card_of_nodup (committee.sorted.imp UInt64.ne_of_lt)

lemma size_pos : 0 < committee.size := List.length_pos_iff.mpr committee.nonempty

/-- Two quorums have more than `max_faults` members in common. -/
lemma size_add_maxFaults_lt :
    committee.size + committee.maxFaults < 2 * committee.quorumThreshold := by
  have hpos := committee.size_pos
  rw [maxFaults, quorumThreshold]
  omega

variable {committee}

/-- At most `max_faults` members are less than one third of them. -/
lemma three_mul_lt_card_members {n : ℕ} (h : n ≤ committee.maxFaults) :
    3 * n < committee.members.card := by
  have hpos := committee.size_pos
  rw [maxFaults] at h
  rw [committee.card_members]
  omega

/-- As many different members as the threshold says are more than two thirds of
them. -/
lemma quorum_of_voters {voters : List NodeId} (hdistinct : voters.Nodup)
    (hmembers : ∀ x ∈ voters, x ∈ committee.nodeIds)
    (hlen : committee.quorumThreshold ≤ voters.length) :
    voters.toFinset ⊆ committee.members ∧
      2 * committee.members.card < 3 * voters.toFinset.card := by
  refine ⟨fun x hx => List.mem_toFinset.mpr (hmembers x (List.mem_toFinset.mp hx)), ?_⟩
  rw [List.toFinset_card_of_nodup hdistinct, committee.card_members]
  rw [quorumThreshold] at hlen
  omega

end Committee

/-! ### Slots -/

/-- `BucketRange`. -/
structure BucketRange where
  start : BucketId
  stop : BucketId
  deriving DecidableEq

/-- `BlockletProposal`. -/
structure BlockletProposal where
  view : View
  slot : Slot
  proposer : NodeId
  availCerts : List DigestBytes
  bucketRange : BucketRange
  digest : DigestBytes
  deriving DecidableEq

/-- `SlotVote`. -/
structure SlotVote where
  view : View
  slot : Slot
  proposalDigest : DigestBytes
  voter : NodeId
  signature : Signature
  deriving DecidableEq

/-- `SlotQC`. -/
structure SlotQC where
  view : View
  slot : Slot
  proposalDigest : DigestBytes
  proposal : BlockletProposal
  votes : List SlotVote
  deriving DecidableEq

namespace SlotQC

/-- `SlotQC::verify`. -/
def verify (qc : SlotQC) (quorumThreshold : ℕ) : Bool :=
  if qc.votes.length < quorumThreshold then false
  else qc.votes.all fun v =>
    v.proposalDigest == qc.proposalDigest && v.view == qc.view && v.slot == qc.slot

/-- `SlotQC::digest`. -/
def digest (hash : List UInt8 → DigestBytes) (qc : SlotQC) : DigestBytes :=
  hash (toLeBytes qc.view ++ toLeBytes qc.slot ++ qc.proposalDigest.bytes)

lemma verify_iff {qc : SlotQC} {quorumThreshold : ℕ} :
    qc.verify quorumThreshold = true ↔ quorumThreshold ≤ qc.votes.length ∧
      ∀ v ∈ qc.votes, v.proposalDigest = qc.proposalDigest ∧ v.view = qc.view ∧
        v.slot = qc.slot := by
  rw [verify]
  split
  · simp [*]
  · simp [*, not_lt.mp, and_assoc]

end SlotQC

/-! ### Macro blocks -/

/-- `SlotEntry`. -/
structure SlotEntry where
  slot : Slot
  slotQcDigest : DigestBytes
  deriving DecidableEq

/-- `MacroHeader`. -/
structure MacroHeader where
  view : View
  height : Height
  leader : NodeId
  parentQc : Option DigestBytes
  slotEntries : List SlotEntry
  digest : DigestBytes
  deriving DecidableEq

/-- `MacroHeader::compute_digest`. -/
def MacroHeader.computeDigest (hash : List UInt8 → DigestBytes) (view : View) (height : Height)
    (leader : NodeId) (parentQc : Option DigestBytes) (entries : List SlotEntry) : DigestBytes :=
  hash (toLeBytes view ++ toLeBytes height ++ toLeBytes leader ++
    (match parentQc with
      | none => []
      | some pqc => pqc.bytes) ++
    entries.flatMap fun e => toLeBytes e.slot ++ e.slotQcDigest.bytes)

/-- `MacroVote`. -/
structure MacroVote where
  view : View
  height : Height
  headerDigest : DigestBytes
  voter : NodeId
  signature : Signature
  deriving DecidableEq

/-- `MacroQC`. -/
structure MacroQC where
  view : View
  height : Height
  headerDigest : DigestBytes
  header : MacroHeader
  votes : List MacroVote
  deriving DecidableEq

namespace MacroQC

/-- `MacroQC::verify`. -/
def verify (qc : MacroQC) (quorumThreshold : ℕ) : Bool :=
  if qc.votes.length < quorumThreshold then false
  else qc.votes.all fun v =>
    v.headerDigest == qc.headerDigest && v.view == qc.view && v.height == qc.height

/-- `MacroQC::digest`. -/
def digest (hash : List UInt8 → DigestBytes) (qc : MacroQC) : DigestBytes :=
  hash (toLeBytes qc.view ++ toLeBytes qc.height ++ qc.headerDigest.bytes)

lemma verify_iff {qc : MacroQC} {quorumThreshold : ℕ} :
    qc.verify quorumThreshold = true ↔ quorumThreshold ≤ qc.votes.length ∧
      ∀ v ∈ qc.votes, v.headerDigest = qc.headerDigest ∧ v.view = qc.view ∧
        v.height = qc.height := by
  rw [verify]
  split
  · simp [*]
  · simp [*, not_lt.mp, and_assoc]

end MacroQC

/-- `CommittedBlock`. -/
structure CommittedBlock where
  height : Height
  view : View
  header : MacroHeader
  qc : MacroQC
  slotQcs : List SlotQC
  deriving DecidableEq

end StablecoinSystem.ControlPlane
