import StablecoinSystem.ControlPlane.SlotLayer
import StablecoinSystem.Support.Grouping
import StablecoinSystem.Support.Loop

/-!
When the certificates of a collector verify.

A collector holds the first vote of each voter (`firstVotes`) and the subject set
last (`lastSubject`), and it returns a certificate of both whenever a new voter's
vote makes or follows a quorum. It never compares the digest of a vote with that
of the subject. The votes are of different voters in any case; the certificates
verify exactly if the first votes are for the subject set last each time one is
returned (`VotesMatch`).
-/

namespace StablecoinSystem.ControlPlane

variable {κ π ν Q : Type}

/-- The subject that was set last. -/
def lastSubject (calls : List (CollectorCall π ν)) : Option π :=
  (calls.filterMap fun call =>
    match call with
    | .set subject => some subject
    | .vote _ => none).getLast?

/-- The first vote of each voter. -/
def firstVotes (ballot : Ballot κ π ν Q) (calls : List (CollectorCall π ν)) : List ν :=
  retainFirst ballot.voter [] (castVotes calls)

@[simp] lemma lastSubject_set (calls : List (CollectorCall π ν)) (subject : π) :
    lastSubject (calls ++ [.set subject]) = some subject := by
  simp [lastSubject]

@[simp] lemma lastSubject_vote (calls : List (CollectorCall π ν)) (vote : ν) :
    lastSubject (calls ++ [.vote vote]) = lastSubject calls := by
  simp [lastSubject]

@[simp] lemma castVotes_set (calls : List (CollectorCall π ν)) (subject : π) :
    castVotes (calls ++ [.set subject]) = castVotes calls := by
  simp [castVotes]

@[simp] lemma castVotes_vote (calls : List (CollectorCall π ν)) (vote : ν) :
    castVotes (calls ++ [.vote vote]) = castVotes calls ++ [vote] := by
  simp [castVotes]

lemma firstVotes_set (ballot : Ballot κ π ν Q) (calls : List (CollectorCall π ν)) (subject : π) :
    firstVotes ballot (calls ++ [.set subject]) = firstVotes ballot calls := by
  rw [firstVotes, castVotes_set, firstVotes]

lemma firstVotes_vote (ballot : Ballot κ π ν Q) (calls : List (CollectorCall π ν)) (vote : ν) :
    firstVotes ballot (calls ++ [.vote vote]) = firstVotes ballot calls ++
      if ballot.voter vote ∈ (castVotes calls).map ballot.voter then [] else [vote] := by
  rw [firstVotes, castVotes_vote, retainFirst_concat, firstVotes]
  simp

lemma firstVotes_distinct (ballot : Ballot κ π ν Q) (calls : List (CollectorCall π ν)) :
    ((firstVotes ballot calls).map ballot.voter).Nodup :=
  List.pairwise_map.mpr (retainFirst_keys_ne ballot.voter [] (castVotes calls))

lemma mem_castVotes_of_mem_firstVotes {ballot : Ballot κ π ν Q} {calls : List (CollectorCall π ν)}
    {v : ν} (hv : v ∈ firstVotes ballot calls) : v ∈ castVotes calls :=
  List.mem_of_find?_eq_some ((mem_retainFirst_iff ballot.voter).mp hv)

namespace Collector

variable [DecidableEq κ] (ballot : Ballot κ π ν Q)

/-- The collector after a sequence of calls. -/
def run (c : Collector κ π ν) (calls : List (CollectorCall π ν)) : Collector κ π ν :=
  calls.foldl (fun c call => (c.step ballot call).1) c

lemma returned_concat (c : Collector κ π ν) (calls : List (CollectorCall π ν))
    (call : CollectorCall π ν) :
    c.returned ballot (calls ++ [call]) =
      c.returned ballot calls ++ ((c.run ballot calls).step ballot call).2.toList := by
  induction calls generalizing c with
  | nil => simp [returned, run]
  | cons first calls ih =>
      rw [List.cons_append, returned, returned, ih, List.append_assoc]
      rfl

lemma run_concat (c : Collector κ π ν) (calls : List (CollectorCall π ν))
    (call : CollectorCall π ν) :
    c.run ballot (calls ++ [call]) = ((c.run ballot calls).step ballot call).1 := by
  rw [run, List.foldl_append]
  rfl

variable {ballot} {key : κ} {n : ℕ}

/-- **What a collector holds**: the subject set last and the first vote of each
voter. -/
lemma run_new {calls : List (CollectorCall π ν)} (hkey : ∀ v ∈ castVotes calls, ballot.key v = key) :
    (new key n : Collector κ π ν).run ballot calls =
      { key := key
        subject := lastSubject calls
        votes := firstVotes ballot calls
        quorumThreshold := n } := by
  induction calls using List.reverseRecOn with
  | nil => rfl
  | append_singleton calls call ih =>
      cases call with
      | set subject =>
          rw [castVotes_set] at hkey
          rw [run_concat, ih hkey, lastSubject_set, firstVotes_set]
          rfl
      | vote vote =>
          rw [castVotes_vote, List.forall_mem_append, List.forall_mem_singleton] at hkey
          rw [run_concat, ih hkey.1, lastSubject_vote, firstVotes_vote]
          -- `add_vote` compares with the votes it holds, the spec with all votes cast
          have hmem := mem_map_retainFirst_iff ballot.voter (l := castVotes calls)
            (k := ballot.voter vote)
          split
          · rename_i hrepeated
            rw [step, addVote_of_repeated (hmem.mpr hrepeated), List.append_nil]
          · rename_i hnew
            rw [step, addVote_of_new hkey.2 fun hold => hnew (hmem.mp hold)]

/-- What a vote returns after `calls`: a certificate if its voter is new, there
are enough votes and a subject is set. -/
lemma addVote_run_new {calls : List (CollectorCall π ν)} {vote : ν}
    (hkey : ∀ v ∈ castVotes (calls ++ [.vote vote]), ballot.key v = key) (qc : Q) :
    qc ∈ (((new key n : Collector κ π ν).run ballot calls).addVote ballot vote).2 ↔
      ballot.voter vote ∉ (castVotes calls).map ballot.voter ∧
        n ≤ (firstVotes ballot (calls ++ [.vote vote])).length ∧
        ∃ subject ∈ lastSubject calls,
          qc = ballot.certify key subject (firstVotes ballot (calls ++ [.vote vote])) := by
  rw [castVotes_vote, List.forall_mem_append, List.forall_mem_singleton] at hkey
  rw [run_new hkey.1, firstVotes_vote]
  have hmem := mem_map_retainFirst_iff ballot.voter (l := castVotes calls) (k := ballot.voter vote)
  by_cases hvoter : ballot.voter vote ∈ (castVotes calls).map ballot.voter
  · rw [addVote_of_repeated (hmem.mpr hvoter)]
    simp [hvoter]
  · rw [addVote_of_new hkey.2 fun hold => hvoter (hmem.mp hold)]
    by_cases hlen : n ≤ (firstVotes ballot calls).length + 1
    · simp [hvoter, hlen, eq_comm]
    · simp [hvoter, hlen]

/-- Every certificate that a sequence of calls returns satisfies `P` exactly if
each one does that a vote of a new voter makes. -/
lemma forall_returned_iff {P : Q → Prop} {calls : List (CollectorCall π ν)}
    (hkey : ∀ v ∈ castVotes calls, ballot.key v = key) :
    (∀ qc ∈ (new key n : Collector κ π ν).returned ballot calls, P qc) ↔
      ForallSplit (fun pre call => ∀ vote, call = .vote vote →
        ballot.voter vote ∉ (castVotes pre).map ballot.voter →
        n ≤ (firstVotes ballot (pre ++ [call])).length → ∀ subject ∈ lastSubject pre,
          P (ballot.certify key subject (firstVotes ballot (pre ++ [call])))) calls := by
  induction calls using List.reverseRecOn with
  | nil => exact iff_of_true (by simp [returned]) fun pre call post hnil => by simp at hnil
  | append_singleton calls call ih =>
      have hearlier : ∀ v ∈ castVotes calls, ballot.key v = key := fun v hv =>
        hkey v (by rw [castVotes, List.filterMap_append]; exact List.mem_append_left _ hv)
      rw [returned_concat, List.forall_mem_append, forallSplit_append_singleton, ih hearlier]
      -- only the last call is left, and only a vote returns something
      refine and_congr_right fun _ => ?_
      cases call with
      | set subject => simp [step]
      | vote vote =>
          simp only [step, Option.mem_toList]
          constructor
          · intro h vote' heq hnew hlen subject hsubject
            cases heq
            exact h _ ((addVote_run_new hkey _).mpr ⟨hnew, hlen, subject, hsubject, rfl⟩)
          · intro h qc hqc
            obtain ⟨hnew, hlen, subject, hsubject, rfl⟩ := (addVote_run_new hkey qc).mp hqc
            exact h vote rfl hnew hlen subject hsubject

end Collector

/-! ### Votes on proposals and on headers -/

/-- Whenever a new voter's vote makes or follows a quorum while a subject is set,
the first vote of each voter is for the subject set last. -/
def VotesMatch (ballot : Ballot κ π ν Q) (digestOf : π → DigestBytes) (n : ℕ)
    (calls : List (CollectorCall π ν)) : Prop :=
  ForallSplit (fun pre call => ∀ vote, call = .vote vote →
    ballot.voter vote ∉ (castVotes pre).map ballot.voter →
    n ≤ (firstVotes ballot (pre ++ [call])).length → ∀ subject ∈ lastSubject pre,
      ∀ v ∈ firstVotes ballot (pre ++ [call]), ballot.digest v = digestOf subject) calls

variable [DecidableEq κ] {ballot : Ballot κ π ν Q} {key : κ} {n : ℕ}

/-- The certificates are valid exactly if the votes match, where `valid` of a
certificate says that its votes are enough, on the key and for the digest of its
subject, and of different voters. -/
lemma forall_valid_iff {valid : Q → Prop} {digestOf : π → DigestBytes}
    {calls : List (CollectorCall π ν)} (hkey : ∀ v ∈ castVotes calls, ballot.key v = key)
    (hvalid : ∀ subject votes, valid (ballot.certify key subject votes) ↔
      (n ≤ votes.length ∧ ∀ v ∈ votes, ballot.digest v = digestOf subject ∧ ballot.key v = key) ∧
        (votes.map ballot.voter).Nodup) :
    (∀ qc ∈ (Collector.new key n : Collector κ π ν).returned ballot calls, valid qc) ↔
      VotesMatch ballot digestOf n calls := by
  rw [Collector.forall_returned_iff hkey]
  refine forallSplit_congr fun pre call post hsplit => ?_
  have hvotes : ∀ v ∈ firstVotes ballot (pre ++ [call]), ballot.key v = key := by
    intro v hv
    refine hkey v ?_
    rw [hsplit, List.append_cons, castVotes, List.filterMap_append]
    exact List.mem_append_left _ (mem_castVotes_of_mem_firstVotes hv)
  constructor
  · intro h vote hcall hnew hlen subject hsubject v hv
    exact (((hvalid _ _).mp (h vote hcall hnew hlen subject hsubject)).1.2 v hv).1
  · intro h vote hcall hnew hlen subject hsubject
    exact (hvalid _ _).mpr ⟨⟨hlen, fun v hv => ⟨h vote hcall hnew hlen subject hsubject v hv,
      hvotes v hv⟩⟩, firstVotes_distinct ballot _⟩

/-- **When the certificates of a collector are valid.** For votes on proposals of
the collector's view and slot, every certificate returned verifies and has
different voters if and only if the first votes are for the proposal set last
whenever a certificate is due. The same holds of votes on headers. -/
theorem collected_valid_iff (hash : List UInt8 → DigestBytes) (n : ℕ) :
    (∀ (view : View) (slot : Slot) (calls : List (CollectorCall BlockletProposal SlotVote)),
      (∀ v ∈ castVotes calls, ∃ proposal voter, proposal.view = view ∧ proposal.slot = slot ∧
        v = voteOnProposal hash proposal voter) →
      ((∀ qc ∈ (SlotCollector.new view slot n).returned slotBallot calls,
          qc.verify n = true ∧ (qc.votes.map SlotVote.voter).Nodup) ↔
        VotesMatch slotBallot BlockletProposal.digest n calls)) ∧
    (∀ (view : View) (height : Height) (calls : List (CollectorCall MacroHeader MacroVote)),
      (∀ v ∈ castVotes calls, ∃ header voter, header.view = view ∧ header.height = height ∧
        v = voteOnHeader hash header voter) →
      ((∀ qc ∈ (MacroCollector.new view height n).returned macroBallot calls,
          qc.verify n = true ∧ (qc.votes.map MacroVote.voter).Nodup) ↔
        VotesMatch macroBallot MacroHeader.digest n calls)) := by
  refine ⟨fun view slot calls hcast => ?_, fun view height calls hcast => ?_⟩
  · refine forall_valid_iff (fun v hv => ?_) fun proposal votes => ?_
    · obtain ⟨proposal, voter, rfl, rfl, rfl⟩ := hcast v hv
      rfl
    · rw [SlotQC.verify_iff]
      simp only [slotBallot, Prod.mk.injEq]
  · refine forall_valid_iff (fun v hv => ?_) fun header votes => ?_
    · obtain ⟨header, voter, rfl, rfl, rfl⟩ := hcast v hv
      rfl
    · rw [MacroQC.verify_iff]
      simp only [macroBallot, Prod.mk.injEq]

/-- The proposal for slot 0 of view 0 with the given certificates. -/
def proposalOf (certs : List DigestBytes) : BlockletProposal where
  view := 0
  slot := 0
  proposer := slotProposer Protocol.polynomialHash Protocol.fourNodes.committee 0 0
  availCerts := certs
  bucketRange := ⟨0, 1⟩
  digest := BlockletProposal.computeDigest Protocol.polynomialHash 0 0
    (slotProposer Protocol.polynomialHash Protocol.fourNodes.committee 0 0) certs

/-- A proposal is set, two nodes vote for it and the third for another one. -/
def mixedCalls : List (CollectorCall BlockletProposal SlotVote) :=
  let empty := proposalOf []
  let other := proposalOf [Protocol.polynomialHash []]
  [.set empty, .vote (voteOnProposal Protocol.polynomialHash empty 0),
    .vote (voteOnProposal Protocol.polynomialHash empty 1),
    .vote (voteOnProposal Protocol.polynomialHash other 2)]

/-- The proposer sends different proposals to the nodes. The third vote completes
the quorum, and the collector returns a certificate that does not verify. -/
theorem mixed_votes_not_verified :
    let n := Protocol.fourNodes.committee.quorumThreshold
    (∀ v ∈ castVotes mixedCalls, ∃ proposal voter, proposal.view = 0 ∧ proposal.slot = 0 ∧
      v = voteOnProposal Protocol.polynomialHash proposal voter) ∧
      ∃ qc ∈ (SlotCollector.new 0 0 n).returned slotBallot mixedCalls, ¬qc.verify n = true := by
  intro n
  refine ⟨?_, by decide +kernel⟩
  show ∀ v ∈ [voteOnProposal _ _ 0, voteOnProposal _ _ 1, voteOnProposal _ _ 2], _
  simp only [List.forall_mem_cons]
  exact ⟨⟨proposalOf [], 0, rfl, rfl, rfl⟩, ⟨proposalOf [], 1, rfl, rfl, rfl⟩,
    ⟨proposalOf [Protocol.polynomialHash []], 2, rfl, rfl, rfl⟩, by simp⟩

end StablecoinSystem.ControlPlane
