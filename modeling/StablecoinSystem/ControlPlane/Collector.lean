import StablecoinSystem.ControlPlane.Safety

/-!
Vote collectors (`control_plane/slot_layer.rs`, `control_plane/macro_layer.rs`)
and what their certificates say.

`SlotCollector` and `MacroCollector` do the same with votes on proposals for a
slot and on headers of a height. `Collector` is both, and a `Ballot` says what a
vote is.

* `Collected`: the votes a collector holds are of different voters;
* `collected_unique`: collectors with votes of the same members return
  certificates for one digest, unless more than `max_faults` members vote for
  two;
* `Collected.hasQuorum`: enough votes of members that a collector holds are those
  of a quorum;
* `common_voters`: two certificates of quorums share `max_faults + 1` members.
  `verify` asks neither for different voters nor for members.
-/

namespace StablecoinSystem.ControlPlane

variable {κ π ν Q : Type}

/-- What a vote is on and for, and the certificate that votes make. -/
structure Ballot (κ π ν Q : Type) where
  key : ν → κ
  voter : ν → NodeId
  digest : ν → DigestBytes
  certify : κ → π → List ν → Q

/-- `SlotCollector` and `MacroCollector`: `key` is the view and the slot or
height, `subject` the proposal or header. -/
structure Collector (κ π ν : Type) where
  key : κ
  subject : Option π
  votes : List ν
  quorumThreshold : ℕ

namespace Collector

/-- `new`. -/
def new (key : κ) (quorumThreshold : ℕ) : Collector κ π ν where
  key := key
  subject := none
  votes := []
  quorumThreshold := quorumThreshold

/-- `set_proposal` and `set_header`. -/
def setSubject (c : Collector κ π ν) (subject : π) : Collector κ π ν :=
  { c with subject := some subject }

variable [DecidableEq κ] (ballot : Ballot κ π ν Q)

/-- `add_vote`: the collector afterwards, and the certificate returned. -/
def addVote (c : Collector κ π ν) (vote : ν) : Collector κ π ν × Option Q :=
  if ballot.key vote ≠ c.key then (c, none)
  else if c.votes.any fun v => ballot.voter v == ballot.voter vote then (c, none)
  else
    let c := { c with votes := c.votes ++ [vote] }
    if c.quorumThreshold ≤ c.votes.length then
      match c.subject with
      | some subject => (c, some (ballot.certify c.key subject c.votes))
      | none => (c, none)
    else (c, none)

end Collector

/-- A call of a method of a collector. -/
inductive CollectorCall (π ν : Type) where
  | set (subject : π)
  | vote (vote : ν)

/-- The votes that are cast in a sequence of calls. -/
def castVotes (calls : List (CollectorCall π ν)) : List ν :=
  calls.filterMap fun call =>
    match call with
    | .set _ => none
    | .vote v => some v

namespace Collector

variable [DecidableEq κ] (ballot : Ballot κ π ν Q)

/-- The collector after a call, and what the call returns. -/
def step (c : Collector κ π ν) : CollectorCall π ν → Collector κ π ν × Option Q
  | .set subject => (c.setSubject subject, none)
  | .vote vote => c.addVote ballot vote

/-- The certificates that a sequence of calls returns. -/
def returned (c : Collector κ π ν) : List (CollectorCall π ν) → List Q
  | [] => []
  | call :: calls => (c.step ballot call).2.toList ++ (c.step ballot call).1.returned calls

end Collector

/-! ### Slots and macro blocks -/

/-- Votes on proposals for a slot. -/
def slotBallot : Ballot (View × Slot) BlockletProposal SlotVote SlotQC where
  key v := (v.view, v.slot)
  voter := SlotVote.voter
  digest := SlotVote.proposalDigest
  certify key proposal votes :=
    { view := key.1
      slot := key.2
      proposalDigest := proposal.digest
      proposal := proposal
      votes := votes }

/-- `SlotCollector`. -/
abbrev SlotCollector := Collector (View × Slot) BlockletProposal SlotVote

namespace SlotCollector

/-- `SlotCollector::new`. -/
def new (view : View) (slot : Slot) (quorumThreshold : ℕ) : SlotCollector :=
  Collector.new (view, slot) quorumThreshold

/-- `SlotCollector::set_proposal`. -/
def setProposal (c : SlotCollector) (proposal : BlockletProposal) : SlotCollector :=
  c.setSubject proposal

/-- `SlotCollector::add_vote`. -/
def addVote (c : SlotCollector) (vote : SlotVote) : SlotCollector × Option SlotQC :=
  Collector.addVote slotBallot c vote

end SlotCollector

/-- Votes on headers of a height. -/
def macroBallot : Ballot (View × Height) MacroHeader MacroVote MacroQC where
  key v := (v.view, v.height)
  voter := MacroVote.voter
  digest := MacroVote.headerDigest
  certify key header votes :=
    { view := key.1
      height := key.2
      headerDigest := header.digest
      header := header
      votes := votes }

/-- `MacroCollector`. -/
abbrev MacroCollector := Collector (View × Height) MacroHeader MacroVote

namespace MacroCollector

/-- `MacroCollector::new`. -/
def new (view : View) (height : Height) (quorumThreshold : ℕ) : MacroCollector :=
  Collector.new (view, height) quorumThreshold

/-- `MacroCollector::set_header`. -/
def setHeader (c : MacroCollector) (header : MacroHeader) : MacroCollector :=
  c.setSubject header

/-- `MacroCollector::add_vote`. -/
def addVote (c : MacroCollector) (vote : MacroVote) : MacroCollector × Option MacroQC :=
  Collector.addVote macroBallot c vote

end MacroCollector

/-! ### Collected votes -/

/-- Votes of different voters on the key, all of them among those cast. -/
structure Collected (ballot : Ballot κ π ν Q) (cast : List ν) (key : κ) (votes : List ν) :
    Prop where
  distinct : (votes.map ballot.voter).Nodup
  cast : ∀ v ∈ votes, v ∈ cast
  key : ∀ v ∈ votes, ballot.key v = key

namespace Collector

variable [DecidableEq κ] {ballot : Ballot κ π ν Q} {cast : List ν} {c : Collector κ π ν}

/-- What `add_vote` does: nothing, or it keeps the vote and returns nothing or a
certificate of all votes. -/
lemma addVote_cases (ballot : Ballot κ π ν Q) (c : Collector κ π ν) (vote : ν) :
    c.addVote ballot vote = (c, none) ∨
      ballot.key vote = c.key ∧ (∀ v ∈ c.votes, ballot.voter v ≠ ballot.voter vote) ∧
        (c.addVote ballot vote).1 = { c with votes := c.votes ++ [vote] } ∧
        ∀ qc ∈ (c.addVote ballot vote).2, ∃ subject,
          qc = ballot.certify c.key subject (c.votes ++ [vote]) := by
  simp only [addVote]
  split
  · exact Or.inl rfl
  · rename_i hkey
    split
    · exact Or.inl rfl
    · rename_i hvoter
      refine Or.inr ⟨not_not.mp hkey, by simpa using hvoter, ?_⟩
      split
      · split
        · refine ⟨rfl, fun qc hqc => ?_⟩
          cases hqc
          exact ⟨_, rfl⟩
        · exact ⟨rfl, fun qc hqc => absurd hqc (Option.not_mem_none qc)⟩
      · exact ⟨rfl, fun qc hqc => absurd hqc (Option.not_mem_none qc)⟩

/-- A vote on the key by a new voter is kept; if there are enough votes then and a
subject is set, they make a certificate for it. -/
lemma addVote_of_new {vote : ν} (hkey : ballot.key vote = c.key)
    (hvoter : ballot.voter vote ∉ c.votes.map ballot.voter) :
    c.addVote ballot vote = ({ c with votes := c.votes ++ [vote] },
      if c.quorumThreshold ≤ c.votes.length + 1 then
        c.subject.map fun subject => ballot.certify c.key subject (c.votes ++ [vote])
      else none) := by
  have hany : (c.votes.any fun v => ballot.voter v == ballot.voter vote) = false := by
    simpa [List.mem_map] using hvoter
  rw [addVote, if_neg (not_not.mpr hkey), hany, if_neg Bool.false_ne_true]
  simp only [List.length_append, List.length_singleton]
  split
  · cases c.subject <;> rfl
  · rfl

lemma addVote_of_repeated {vote : ν} (hvoter : ballot.voter vote ∈ c.votes.map ballot.voter) :
    c.addVote ballot vote = (c, none) := by
  have hany : (c.votes.any fun v => ballot.voter v == ballot.voter vote) = true := by
    simpa [List.mem_map] using hvoter
  rw [addVote, hany]
  simp

/-- A call keeps the voters different, and a certificate it returns is of votes
of different voters. -/
lemma collected_step (h : Collected ballot cast c.key c.votes) {call : CollectorCall π ν}
    (hcast : ∀ v ∈ castVotes [call], v ∈ cast) :
    (c.step ballot call).1.key = c.key ∧
      Collected ballot cast c.key (c.step ballot call).1.votes ∧
      ∀ qc ∈ (c.step ballot call).2, ∃ subject votes,
        qc = ballot.certify c.key subject votes ∧ Collected ballot cast c.key votes := by
  cases call with
  | set subject => exact ⟨rfl, h, fun qc hqc => absurd hqc (Option.not_mem_none qc)⟩
  | vote vote =>
      simp only [step]
      rcases addVote_cases ballot c vote with heq | ⟨hkey, hvoter, heq, hqc⟩
      · rw [heq]
        exact ⟨rfl, h, fun qc hqc => absurd hqc (Option.not_mem_none qc)⟩
      -- the vote was accepted: none of its voter is held, so the voters stay different
      · have hnew : Collected ballot cast c.key (c.votes ++ [vote]) := by
          refine ⟨?_, ?_, ?_⟩
          · rw [List.map_append, List.map_singleton]
            refine h.distinct.append (List.nodup_singleton _) ?_
            intro x hx hx'
            obtain ⟨v, hv, rfl⟩ := List.mem_map.mp hx
            exact hvoter v hv (List.mem_singleton.mp hx')
          · exact List.forall_mem_append.mpr
              ⟨h.cast, List.forall_mem_singleton.mpr (hcast vote List.mem_cons_self)⟩
          · exact List.forall_mem_append.mpr ⟨h.key, List.forall_mem_singleton.mpr hkey⟩
        rw [heq]
        refine ⟨rfl, hnew, fun qc hmem => ?_⟩
        obtain ⟨subject, rfl⟩ := hqc qc hmem
        exact ⟨subject, _, rfl, hnew⟩

/-- **Every certificate returned** is of votes of different voters that have been
cast. -/
theorem collected_returned {key : κ} (hkey : c.key = key) (h : Collected ballot cast key c.votes)
    {calls : List (CollectorCall π ν)} (hcast : ∀ v ∈ castVotes calls, v ∈ cast) {qc : Q}
    (hqc : qc ∈ c.returned ballot calls) :
    ∃ subject votes, qc = ballot.certify key subject votes ∧
      Collected ballot cast key votes := by
  induction calls generalizing c with
  | nil => cases hqc
  | cons call calls ih =>
      subst hkey
      have hsplit : castVotes (call :: calls) = castVotes [call] ++ castVotes calls := by
        rw [castVotes, ← List.singleton_append, List.filterMap_append]
        rfl
      rw [hsplit] at hcast
      obtain ⟨hcall, hcalls⟩ := List.forall_mem_append.mp hcast
      obtain ⟨hkey, hvotes, hreturn⟩ := collected_step h hcall
      rcases List.mem_append.mp hqc with hqc | hqc
      · exact hreturn qc (Option.mem_toList.mp hqc)
      · exact ih hkey hvotes hcalls hqc

end Collector

/-! ### Uniqueness -/

variable [DecidableEq κ] {ballot : Ballot κ π ν Q} {committee : Committee} {cast : List ν} {key : κ}

/-- The members that cast votes on a key for two different digests. -/
def equivocators (ballot : Ballot κ π ν Q) (committee : Committee) (key : κ) (cast : List ν) :
    Finset NodeId :=
  committee.members.filter fun x => ∃ v ∈ cast, ∃ v' ∈ cast,
    (ballot.voter v = x ∧ ballot.key v = key) ∧ (ballot.voter v' = x ∧ ballot.key v' = key) ∧
      ballot.digest v ≠ ballot.digest v'

omit [DecidableEq κ] in
/-- Collected votes for a digest are those of a quorum. -/
lemma Collected.backed {votes : List ν} (h : Collected ballot cast key votes)
    (hmembers : ∀ v ∈ cast, ballot.voter v ∈ committee.nodeIds) {faulty : Finset NodeId}
    (hfaulty : 3 * faulty.card < committee.members.card)
    (hlen : committee.quorumThreshold ≤ votes.length) {digest : DigestBytes}
    (hdigest : ∀ v ∈ votes, ballot.digest v = digest) :
    (QuorumSystem.twoThirds committee.members faulty hfaulty).Backed (fun x digest =>
      ∃ v ∈ cast, (ballot.voter v = x ∧ ballot.key v = key) ∧ ballot.digest v = digest) digest := by
  refine ⟨(votes.map ballot.voter).toFinset, Committee.quorum_of_voters h.distinct ?_ ?_, ?_⟩
  · exact List.forall_mem_map.mpr fun v hv => hmembers v (h.cast v hv)
  · rwa [List.length_map]
  · intro x hx _
    obtain ⟨v, hv, rfl⟩ := List.mem_map.mp (List.mem_toFinset.mp hx)
    exact ⟨v, h.cast v hv, ⟨rfl, h.key v hv⟩, hdigest v hv⟩

/-- Two quorums of collected votes are for one digest, unless more than
`max_faults` members vote for two. -/
lemma Collected.digest_eq {votes votes' : List ν} {digest digest' : DigestBytes}
    (h : Collected ballot cast key votes) (h' : Collected ballot cast key votes')
    (hmembers : ∀ v ∈ cast, ballot.voter v ∈ committee.nodeIds)
    (hfaults : (equivocators ballot committee key cast).card ≤ committee.maxFaults)
    (hlen : committee.quorumThreshold ≤ votes.length)
    (hlen' : committee.quorumThreshold ≤ votes'.length)
    (hdigest : ∀ v ∈ votes, ballot.digest v = digest)
    (hdigest' : ∀ v ∈ votes', ballot.digest v = digest') : digest = digest' := by
  have hfaulty := Committee.three_mul_lt_card_members hfaults
  refine QuorumSystem.eq_of_backed _ ?_ (h.backed hmembers hfaulty hlen hdigest)
    (h'.backed hmembers hfaulty hlen' hdigest')
  rintro x hx ⟨v, hv, hvx, rfl⟩ ⟨v', hv', hvx', rfl⟩
  by_contra hne
  refine hx (Finset.mem_filter.mpr ⟨?_, v, hv, v', hv', hvx, hvx', hne⟩)
  rw [← hvx.1]
  exact List.mem_toFinset.mpr (hmembers v hv)

omit [DecidableEq κ] in
/-- A new collector holds no votes. -/
lemma collected_new (quorumThreshold : ℕ) :
    Collected ballot cast key (Collector.new key quorumThreshold : Collector κ π ν).votes :=
  ⟨List.nodup_nil, fun _ hv => absurd hv List.not_mem_nil, fun _ hv => absurd hv List.not_mem_nil⟩

/-- Two collectors for one key, each with any calls. -/
lemma collected_returned_pair {calls calls' : List (CollectorCall π ν)} {n : ℕ} {qc qc' : Q}
    (hqc : qc ∈ (Collector.new key n).returned ballot calls)
    (hqc' : qc' ∈ (Collector.new key n).returned ballot calls') :
    (∃ subject votes, qc = ballot.certify key subject votes ∧
        Collected ballot (castVotes calls ++ castVotes calls') key votes) ∧
      ∃ subject votes, qc' = ballot.certify key subject votes ∧
        Collected ballot (castVotes calls ++ castVotes calls') key votes :=
  ⟨Collector.collected_returned rfl (collected_new n)
      (fun _ hv => List.mem_append_left _ hv) hqc,
    Collector.collected_returned rfl (collected_new n)
      (fun _ hv => List.mem_append_right _ hv) hqc'⟩

/-- **Collected certificates are unique.** Two collectors for one view and slot,
fed with any calls and votes of members, return verified certificates for one
proposal, if at most `max_faults` members vote for two. The same holds of
headers for one view and height. -/
theorem collected_unique (committee : Committee) :
    (∀ (view : View) (slot : Slot) (calls calls' : List (CollectorCall BlockletProposal SlotVote)),
      (∀ v ∈ castVotes calls ++ castVotes calls', v.voter ∈ committee.nodeIds) →
      (equivocators slotBallot committee (view, slot) (castVotes calls ++ castVotes calls')).card ≤
        committee.maxFaults →
      ∀ qc ∈ (SlotCollector.new view slot committee.quorumThreshold).returned slotBallot calls,
      ∀ qc' ∈ (SlotCollector.new view slot committee.quorumThreshold).returned slotBallot calls',
        qc.verify committee.quorumThreshold = true → qc'.verify committee.quorumThreshold = true →
          qc.proposalDigest = qc'.proposalDigest) ∧
    (∀ (view : View) (height : Height) (calls calls' : List (CollectorCall MacroHeader MacroVote)),
      (∀ v ∈ castVotes calls ++ castVotes calls', v.voter ∈ committee.nodeIds) →
      (equivocators macroBallot committee (view, height)
        (castVotes calls ++ castVotes calls')).card ≤ committee.maxFaults →
      ∀ qc ∈ (MacroCollector.new view height committee.quorumThreshold).returned macroBallot calls,
      ∀ qc' ∈ (MacroCollector.new view height committee.quorumThreshold).returned macroBallot
        calls', qc.verify committee.quorumThreshold = true →
          qc'.verify committee.quorumThreshold = true → qc.headerDigest = qc'.headerDigest) := by
  refine ⟨?_, ?_⟩
  · intro view slot calls calls' hmembers hfaults qc hqc qc' hqc' hverify hverify'
    -- both certificates are of collected votes, and verification ties each vote to its digest
    obtain ⟨⟨subject, votes, rfl, h⟩, subject', votes', rfl, h'⟩ :=
      collected_returned_pair hqc hqc'
    obtain ⟨hlen, hmatch⟩ := SlotQC.verify_iff.mp hverify
    obtain ⟨hlen', hmatch'⟩ := SlotQC.verify_iff.mp hverify'
    exact h.digest_eq h' hmembers hfaults hlen hlen' (fun v hv => (hmatch v hv).1)
      fun v hv => (hmatch' v hv).1
  · intro view height calls calls' hmembers hfaults qc hqc qc' hqc' hverify hverify'
    obtain ⟨⟨subject, votes, rfl, h⟩, subject', votes', rfl, h'⟩ :=
      collected_returned_pair hqc hqc'
    obtain ⟨hlen, hmatch⟩ := MacroQC.verify_iff.mp hverify
    obtain ⟨hlen', hmatch'⟩ := MacroQC.verify_iff.mp hverify'
    exact h.digest_eq h' hmembers hfaults hlen hlen' (fun v hv => (hmatch v hv).1)
      fun v hv => (hmatch' v hv).1

/-- Another header for the view and height of `branch 0 0`. -/
def otherHeader : MacroHeader :=
  createMacroHeader Protocol.polynomialHash 0 0 (Protocol.fourNodes.committee.leader 0) none []

/-- The header and the votes of the given nodes for it are handed to a
collector. -/
def feed (header : MacroHeader) (voters : List NodeId) :
    List (CollectorCall MacroHeader MacroVote) :=
  .set header :: voters.map fun x => .vote (voteOnHeader Protocol.polynomialHash header x)

/-- Node 0 votes for two headers, one in each stream. -/
theorem collected_unique_one_equivocator :
    let header := (Protocol.branch 0 0).header
    let committee := Protocol.fourNodes.committee
    let calls := feed header [0, 1, 2]
    let calls' := feed header [1, 2, 3] ++
      [.vote (voteOnHeader Protocol.polynomialHash otherHeader 0)]
    (equivocators macroBallot committee (0, 0) (castVotes calls ++ castVotes calls')).card = 1 ∧
      ∃ qc ∈ (MacroCollector.new 0 0 committee.quorumThreshold).returned macroBallot calls,
      ∃ qc' ∈ (MacroCollector.new 0 0 committee.quorumThreshold).returned macroBallot calls',
        qc.votes ≠ qc'.votes ∧ qc.headerDigest = qc'.headerDigest := by
  intro header committee calls calls'
  have hcard : (equivocators macroBallot committee (0, 0)
      (castVotes calls ++ castVotes calls')).card = 1 := by decide +kernel
  have hreturned :
      ∃ qc ∈ (MacroCollector.new 0 0 committee.quorumThreshold).returned macroBallot calls,
      ∃ qc' ∈ (MacroCollector.new 0 0 committee.quorumThreshold).returned macroBallot calls',
        qc.votes ≠ qc'.votes ∧ qc.verify committee.quorumThreshold = true ∧
          qc'.verify committee.quorumThreshold = true := by decide +kernel
  obtain ⟨qc, hqc, qc', hqc', hne, hverify, hverify'⟩ := hreturned
  refine ⟨hcard, qc, hqc, qc', hqc', hne, ?_⟩
  exact (collected_unique committee).2 0 0 calls calls' (by decide +kernel) (by rw [hcard]; decide)
    qc hqc qc' hqc' hverify hverify'

/-! ### Certificates that `verify` accepts -/

/-- The members among the voters. -/
def memberVoters (committee : Committee) (voters : List NodeId) : Finset NodeId :=
  committee.members ∩ voters.toFinset

/-- The votes are those of a quorum of members (Definition 3.6). -/
def HasQuorum (committee : Committee) (voters : List NodeId) : Prop :=
  committee.quorumThreshold ≤ (memberVoters committee voters).card

instance (committee : Committee) (voters : List NodeId) : Decidable (HasQuorum committee voters) :=
  inferInstanceAs (Decidable (_ ≤ _))

/-- Two quorums are `max_faults + 1` more than there are members. -/
lemma HasQuorum.card_common {voters voters' : List NodeId} (h : HasQuorum committee voters)
    (h' : HasQuorum committee voters') :
    committee.maxFaults + 1 ≤
      (memberVoters committee voters ∩ memberVoters committee voters').card := by
  have hunion : (memberVoters committee voters ∪ memberVoters committee voters').card ≤
      committee.size := by
    rw [← committee.card_members]
    exact Finset.card_le_card (Finset.union_subset Finset.inter_subset_left
      Finset.inter_subset_left)
  have hsum := Finset.card_union_add_card_inter (memberVoters committee voters)
    (memberVoters committee voters')
  have hquorum := committee.size_add_maxFaults_lt
  rw [HasQuorum] at h h'
  omega

/-- **Certificates of quorums share `max_faults + 1` members.** `verify` counts
votes: that they are those of a quorum of members has to be known of each of the two
certificates. -/
theorem common_voters (committee : Committee) :
    (∀ qc qc' : MacroQC, qc.verify committee.quorumThreshold = true →
      qc'.verify committee.quorumThreshold = true → qc.view = qc'.view → qc.height = qc'.height →
      qc.headerDigest ≠ qc'.headerDigest →
      HasQuorum committee (qc.votes.map MacroVote.voter) →
      HasQuorum committee (qc'.votes.map MacroVote.voter) →
        committee.maxFaults + 1 ≤ (memberVoters committee (qc.votes.map MacroVote.voter) ∩
          memberVoters committee (qc'.votes.map MacroVote.voter)).card) ∧
    (∀ qc qc' : SlotQC, qc.verify committee.quorumThreshold = true →
      qc'.verify committee.quorumThreshold = true → qc.view = qc'.view → qc.slot = qc'.slot →
      qc.proposalDigest ≠ qc'.proposalDigest →
      HasQuorum committee (qc.votes.map SlotVote.voter) →
      HasQuorum committee (qc'.votes.map SlotVote.voter) →
        committee.maxFaults + 1 ≤ (memberVoters committee (qc.votes.map SlotVote.voter) ∩
          memberVoters committee (qc'.votes.map SlotVote.voter)).card) :=
  ⟨fun _ _ _ _ _ _ _ h h' => h.card_common h', fun _ _ _ _ _ _ _ h h' => h.card_common h'⟩

/-- A certificate of votes of the given nodes for a header. -/
def certificateOf (header : MacroHeader) (voters : List NodeId) : MacroQC where
  view := header.view
  height := header.height
  headerDigest := header.digest
  header := header
  votes := voters.map (voteOnHeader Protocol.polynomialHash header)

/-- The second certificate repeats a vote. -/
theorem common_voters_repeated :
    let committee := Protocol.fourNodes.committee
    let qc := certificateOf (Protocol.branch 0 0).header [0, 1, 2]
    let qc' := certificateOf otherHeader [1, 2, 3, 3]
    qc.headerDigest ≠ qc'.headerDigest ∧ committee.maxFaults + 1 ≤
      (memberVoters committee (qc.votes.map MacroVote.voter) ∩
        memberVoters committee (qc'.votes.map MacroVote.voter)).card := by
  intro committee qc qc'
  have hne : qc.headerDigest ≠ qc'.headerDigest := by decide +kernel
  exact ⟨hne, (common_voters committee).1 qc qc' (by decide +kernel) (by decide +kernel) rfl rfl
    hne (by decide +kernel) (by decide +kernel)⟩

/-- Certificates without a quorum may share as many members. -/
example :
    let committee := Protocol.fourNodes.committee
    let voters : List NodeId := [0, 1, 1]
    ¬HasQuorum committee voters ∧ committee.maxFaults + 1 ≤
      (memberVoters committee voters ∩ memberVoters committee voters).card := by
  decide +kernel

/-- `verify` accepts three votes of one node. Two such certificates for different
headers of one view and height share no voter. -/
theorem no_common_voter :
    let committee := Protocol.fourNodes.committee
    let qc := certificateOf (Protocol.branch 0 0).header [0, 0, 0]
    let qc' := certificateOf otherHeader [1, 1, 1]
    qc.verify committee.quorumThreshold = true ∧ qc'.verify committee.quorumThreshold = true ∧
      qc.view = qc'.view ∧ qc.height = qc'.height ∧ qc.headerDigest ≠ qc'.headerDigest ∧
      memberVoters committee (qc.votes.map MacroVote.voter) ∩
          memberVoters committee (qc'.votes.map MacroVote.voter) = ∅ ∧
      ¬committee.maxFaults + 1 ≤ (memberVoters committee (qc.votes.map MacroVote.voter) ∩
          memberVoters committee (qc'.votes.map MacroVote.voter)).card := by
  decide +kernel

end StablecoinSystem.ControlPlane
