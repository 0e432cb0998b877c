import StablecoinSystem.Primary.Messages
import StablecoinSystem.Support.Tally

/-!
The aggregators of votes and of certificates (`primary/src/aggregators.rs`).

Both count the stake of an authority once and set their weight to zero when it
reaches the quorum, which "ensures quorum is only reached once". The weights are `u32`
and wrap as in a release build. If no sum of stakes overflows, the aggregators are
tallies of authorities, and a quorum is more than half of the total stake; the quorum
is reached once then.

* `VotesAggregator.append_cases`, `CertificatesAggregator.append_cases`: what
  appending does;
* `VotesAggregator.certifies_iff`: whatever the votes, a certificate is assembled
  with the vote by which the voters reach a quorum, and never again;
* `CertificatesAggregator.hands_over_iff`: the same of the parents of a round.
-/

namespace StablecoinSystem

/-- `VotesAggregator`. -/
structure VotesAggregator where
  weight : ℕ
  votes : List (ℕ × ℕ)
  used : List ℕ

/-- `CertificatesAggregator`. -/
structure CertificatesAggregator where
  weight : ℕ
  certificates : List ℕ
  used : List ℕ

namespace VotesAggregator

/-- `VotesAggregator::new`. -/
def new : VotesAggregator := ⟨0, [], []⟩

/-- `VotesAggregator::append`. -/
def append (agg : VotesAggregator) (vote : Vote) (committee : Committee) (header : Header) :
    VotesAggregator × Except DagError (Option CertifiedHeader) :=
  if vote.author ∈ agg.used then (agg, .error (.authorityReuse vote.author))
  else
    let used := agg.used ++ [vote.author]
    let votes := agg.votes ++ [(vote.author, vote.signature)]
    let weight := (agg.weight + committee.stake vote.author) % 2 ^ 32
    if committee.quorumThreshold ≤ weight then (⟨0, votes, used⟩, .ok (some ⟨header, votes⟩))
    else (⟨weight, votes, used⟩, .ok none)

end VotesAggregator

namespace CertificatesAggregator

/-- `CertificatesAggregator::new`. -/
def new : CertificatesAggregator := ⟨0, [], []⟩

/-- `CertificatesAggregator::append`, of a certificate with the given origin and
digest. -/
def append (agg : CertificatesAggregator) (origin digest : ℕ) (committee : Committee) :
    CertificatesAggregator × Option (List ℕ) :=
  if origin ∈ agg.used then (agg, none)
  else
    let used := agg.used ++ [origin]
    let certificates := agg.certificates ++ [digest]
    let weight := (agg.weight + committee.stake origin) % 2 ^ 32
    if committee.quorumThreshold ≤ weight then (⟨0, [], used⟩, some certificates)
    else (⟨weight, certificates, used⟩, none)

end CertificatesAggregator

namespace Committee

variable {committee : Committee}

lemma weight_le (committee : Committee) (names : Finset ℕ) :
    committee.weight names ≤ committee.totalStake := by
  have hsum : committee.weight (names ∩ committee.members) = committee.weight names :=
    Finset.sum_subset Finset.inter_subset_left fun name hname hnot =>
      stake_eq_zero fun hmem => hnot (Finset.mem_inter.mpr ⟨hname, hmem⟩)
  rw [← hsum, ← weight_members]
  exact Finset.sum_le_sum_of_subset Finset.inter_subset_right

lemma stake_le (committee : Committee) (name : ℕ) :
    committee.stake name ≤ committee.totalStake := by
  have hle := committee.weight_le {name}
  rwa [weight, Finset.sum_singleton] at hle

/-- A set of names has less than twice the stake of a quorum. -/
lemma weight_lt (hfits : committee.Fits) (names : Finset ℕ) :
    committee.weight names < 2 * committee.quorumThreshold := by
  have hle := committee.weight_le names
  have hquorum := (quorumThreshold_le_iff hfits).mp (le_refl committee.quorumThreshold)
  omega

/-- The weight of a tally does not overflow with one more authority. -/
lemma add_mod_of_counts (hfits : committee.Fits) {threshold : ℕ} {keys : List ℕ} {t : Tally ℕ}
    (h : t.Counts committee.stake threshold keys) (name : ℕ) :
    (t.weight + committee.stake name) % 2 ^ 32 = t.weight + committee.stake name := by
  have hkeys : t.weight ≤ committee.totalStake :=
    h.weight_le.trans (committee.weight_le keys.toFinset)
  have hname := committee.stake_le name
  rw [Fits] at hfits
  exact Nat.mod_eq_of_lt (by omega)

end Committee

lemma fourVotes_sorted :
    (([(0, 1), (1, 1), (2, 1), (3, 1)] : List (ℕ × ℕ)).map Prod.fst).Pairwise (· < ·) := by
  decide

/-- Four authorities of one vote each. -/
def fourVotes : Committee := ⟨[(0, 1), (1, 1), (2, 1), (3, 1)], fourVotes_sorted⟩

/-- A vote of an authority. -/
def voteOf (author : ℕ) : Vote := ⟨0, 0, 0, author, 0⟩

namespace VotesAggregator

variable {committee : Committee} {header : Header} {agg : VotesAggregator} {vote : Vote}

/-- Appending a vote fails if its author has voted; otherwise the vote is kept, and
assembles a certificate if the weight reaches the quorum. -/
lemma append_cases (agg : VotesAggregator) (vote : Vote) (committee : Committee)
    (header : Header) :
    vote.author ∈ agg.used ∧
        agg.append vote committee header = (agg, .error (.authorityReuse vote.author)) ∨
      vote.author ∉ agg.used ∧ (agg.weight + committee.stake vote.author) % 2 ^ 32 <
          committee.quorumThreshold ∧
        agg.append vote committee header =
          (⟨(agg.weight + committee.stake vote.author) % 2 ^ 32,
            agg.votes ++ [(vote.author, vote.signature)], agg.used ++ [vote.author]⟩,
            .ok none) ∨
      vote.author ∉ agg.used ∧ committee.quorumThreshold ≤
          (agg.weight + committee.stake vote.author) % 2 ^ 32 ∧
        agg.append vote committee header =
          (⟨0, agg.votes ++ [(vote.author, vote.signature)], agg.used ++ [vote.author]⟩,
            .ok (some ⟨header, agg.votes ++ [(vote.author, vote.signature)]⟩)) := by
  by_cases hused : vote.author ∈ agg.used
  · exact Or.inl ⟨hused, if_pos hused⟩
  · by_cases hquorum : committee.quorumThreshold ≤
        (agg.weight + committee.stake vote.author) % 2 ^ 32
    · exact Or.inr (Or.inr ⟨hused, hquorum, (if_neg hused).trans (if_pos hquorum)⟩)
    · exact Or.inr (Or.inl ⟨hused, not_le.mp hquorum, (if_neg hused).trans (if_neg hquorum)⟩)

/-- The votes as a tally of their authors. -/
def tally (agg : VotesAggregator) : Tally ℕ := ⟨agg.weight, agg.used⟩

section

variable (hadd : (agg.weight + committee.stake vote.author) % 2 ^ 32 =
  agg.weight + committee.stake vote.author)
include hadd

lemma tally_append : (agg.append vote committee header).1.tally =
    (agg.tally.add committee.stake committee.quorumThreshold vote.author).1 := by
  rcases agg.append_cases vote committee header with ⟨hused, happend⟩ | ⟨hused, hless, happend⟩ |
    ⟨hused, hquorum, happend⟩
  · rw [happend, Tally.add, tally, if_pos hused]
  · rw [hadd] at hless happend
    rw [happend, Tally.add, tally, tally, if_neg hused, if_neg (not_le.mpr hless)]
  · rw [hadd] at hquorum
    rw [happend, Tally.add, tally, tally, if_neg hused, if_pos hquorum]

lemma append_eq_some_iff : (∃ c, (agg.append vote committee header).2 = .ok (some c)) ↔
    (agg.tally.add committee.stake committee.quorumThreshold vote.author).2 = true := by
  rcases agg.append_cases vote committee header with ⟨hused, happend⟩ | ⟨hused, hless, happend⟩ |
    ⟨hused, hquorum, happend⟩
  · simp [happend, Tally.add, tally, hused]
  · rw [hadd] at hless
    simp [happend, Tally.add, tally, hused, not_le.mpr hless]
  · rw [hadd] at hquorum
    simp [happend, Tally.add, tally, hused, hquorum]

end

/-- The aggregator after some votes for a header. -/
def collect (committee : Committee) (header : Header) (votes : List Vote) : VotesAggregator :=
  votes.foldl (fun agg vote => (agg.append vote committee header).1) new

lemma counts_collect (hfits : committee.Fits) (header : Header) (votes : List Vote) :
    (collect committee header votes).tally.Counts committee.stake committee.quorumThreshold
      (votes.map Vote.author) := by
  induction votes using List.reverseRecOn with
  | nil => exact Tally.counts_new
  | append_singleton votes vote ih =>
      have hstep : collect committee header (votes ++ [vote]) =
          ((collect committee header votes).append vote committee header).1 := by
        rw [collect, List.foldl_append]
        rfl
      rw [hstep, tally_append (Committee.add_mod_of_counts hfits ih _), List.map_append]
      exact ih.add vote.author

/-- **Of all votes for a header, whatever their authors and their order, exactly the
one with which the voters reach a quorum assembles a certificate**, if no sum of
stakes overflows. -/
theorem certifies_iff (committee : Committee) (header : Header) (votes : List Vote)
    (vote : Vote) (hfits : committee.Fits) :
    (∃ c, ((collect committee header votes).append vote committee header).2 = .ok (some c)) ↔
      committee.weight (votes.map Vote.author).toFinset < committee.quorumThreshold ∧
        committee.quorumThreshold ≤
          committee.weight ((votes ++ [vote]).map Vote.author).toFinset := by
  have hcounts := counts_collect hfits header votes
  rw [append_eq_some_iff (Committee.add_mod_of_counts hfits hcounts _), List.map_append,
    List.map_cons, List.map_nil]
  exact Tally.add_fires_iff hcounts (Committee.weight_lt hfits _)

/-- The third of four authorities of one vote each completes the quorum, although the
second votes twice. -/
theorem certifies_iff_thirdVote :
    (∃ c, ((collect fourVotes Header.default [voteOf 0, voteOf 1, voteOf 1]).append (voteOf 2)
        fourVotes Header.default).2 = .ok (some c)) ∧
      ¬∃ c, ((collect fourVotes Header.default [voteOf 0, voteOf 1, voteOf 2]).append (voteOf 3)
        fourVotes Header.default).2 = .ok (some c) :=
  ⟨(certifies_iff fourVotes Header.default _ (voteOf 2) (by decide)).mpr (by decide),
    fun h => absurd ((certifies_iff fourVotes Header.default _ (voteOf 3) (by decide)).mp h)
      (by decide)⟩

end VotesAggregator

namespace CertificatesAggregator

variable {committee : Committee} {agg : CertificatesAggregator} {origin digest : ℕ}

/-- Appending a certificate does nothing if its origin has one; otherwise the digest
is kept, and all are drained if the weight reaches the quorum. -/
lemma append_cases (agg : CertificatesAggregator) (origin digest : ℕ) (committee : Committee) :
    origin ∈ agg.used ∧ agg.append origin digest committee = (agg, none) ∨
      origin ∉ agg.used ∧
        (agg.weight + committee.stake origin) % 2 ^ 32 < committee.quorumThreshold ∧
        agg.append origin digest committee =
          (⟨(agg.weight + committee.stake origin) % 2 ^ 32, agg.certificates ++ [digest],
            agg.used ++ [origin]⟩, none) ∨
      origin ∉ agg.used ∧
        committee.quorumThreshold ≤ (agg.weight + committee.stake origin) % 2 ^ 32 ∧
        agg.append origin digest committee =
          (⟨0, [], agg.used ++ [origin]⟩, some (agg.certificates ++ [digest])) := by
  by_cases hused : origin ∈ agg.used
  · exact Or.inl ⟨hused, if_pos hused⟩
  · by_cases hquorum : committee.quorumThreshold ≤
        (agg.weight + committee.stake origin) % 2 ^ 32
    · exact Or.inr (Or.inr ⟨hused, hquorum, (if_neg hused).trans (if_pos hquorum)⟩)
    · exact Or.inr (Or.inl ⟨hused, not_le.mp hquorum, (if_neg hused).trans (if_neg hquorum)⟩)

/-- The certificates as a tally of their origins. -/
def tally (agg : CertificatesAggregator) : Tally ℕ := ⟨agg.weight, agg.used⟩

section

variable (hadd : (agg.weight + committee.stake origin) % 2 ^ 32 =
  agg.weight + committee.stake origin)
include hadd

lemma tally_append : (agg.append origin digest committee).1.tally =
    (agg.tally.add committee.stake committee.quorumThreshold origin).1 := by
  rcases agg.append_cases origin digest committee with ⟨hused, happend⟩ | ⟨hused, hless, happend⟩ |
    ⟨hused, hquorum, happend⟩
  · rw [happend, Tally.add, tally, if_pos hused]
  · rw [hadd] at hless happend
    rw [happend, Tally.add, tally, tally, if_neg hused, if_neg (not_le.mpr hless)]
  · rw [hadd] at hquorum
    rw [happend, Tally.add, tally, tally, if_neg hused, if_pos hquorum]

lemma append_eq_some_iff : (∃ parents, (agg.append origin digest committee).2 = some parents) ↔
    (agg.tally.add committee.stake committee.quorumThreshold origin).2 = true := by
  rcases agg.append_cases origin digest committee with ⟨hused, happend⟩ | ⟨hused, hless, happend⟩ |
    ⟨hused, hquorum, happend⟩
  · simp [happend, Tally.add, tally, hused]
  · rw [hadd] at hless
    simp [happend, Tally.add, tally, hused, not_le.mpr hless]
  · rw [hadd] at hquorum
    simp [happend, Tally.add, tally, hused, hquorum]

end

/-- The aggregator after certificates with the given origins and digests. -/
def collect (committee : Committee) (certificates : List (ℕ × ℕ)) : CertificatesAggregator :=
  certificates.foldl (fun agg c => (agg.append c.1 c.2 committee).1) new

lemma counts_collect (hfits : committee.Fits) (certificates : List (ℕ × ℕ)) :
    (collect committee certificates).tally.Counts committee.stake committee.quorumThreshold
      (certificates.map Prod.fst) := by
  induction certificates using List.reverseRecOn with
  | nil => exact Tally.counts_new
  | append_singleton certificates c ih =>
      have hstep : collect committee (certificates ++ [c]) =
          ((collect committee certificates).append c.1 c.2 committee).1 := by
        rw [collect, List.foldl_append]
        rfl
      rw [hstep, tally_append (Committee.add_mod_of_counts hfits ih _), List.map_append]
      exact ih.add c.1

/-- **Of all certificates of a round, whatever their origins and their order, exactly
the one with which the origins reach a quorum hands parents to the proposer**, if no sum
of stakes overflows. -/
theorem hands_over_iff (committee : Committee) (certificates : List (ℕ × ℕ))
    (origin digest : ℕ) (hfits : committee.Fits) :
    (∃ parents, ((collect committee certificates).append origin digest committee).2 =
        some parents) ↔
      committee.weight (certificates.map Prod.fst).toFinset < committee.quorumThreshold ∧
        committee.quorumThreshold ≤
          committee.weight ((certificates ++ [(origin, digest)]).map Prod.fst).toFinset := by
  have hcounts := counts_collect hfits certificates
  rw [append_eq_some_iff (Committee.add_mod_of_counts hfits hcounts _), List.map_append,
    List.map_cons, List.map_nil]
  exact Tally.add_fires_iff hcounts (Committee.weight_lt hfits _)

theorem hands_over_iff_thirdOrigin :
    (∃ parents, ((collect fourVotes [(0, 10), (1, 11), (1, 12)]).append 2 13 fourVotes).2 =
        some parents) ∧
      ¬∃ parents, ((collect fourVotes [(0, 10), (1, 11), (2, 12)]).append 3 13 fourVotes).2 =
        some parents :=
  ⟨(hands_over_iff fourVotes _ 2 13 (by decide)).mpr (by decide),
    fun h => absurd ((hands_over_iff fourVotes _ 3 13 (by decide)).mp h) (by decide)⟩

end CertificatesAggregator

end StablecoinSystem
