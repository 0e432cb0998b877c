import StablecoinSystem.Primary.Ordering

/-!
What the assumptions on the events of a primary exclude, and the code does not.

* `late_quorum_panics`: a quorum of votes for the current header that is complete only
  after the garbage collector has passed its round makes the core panic;
* `stale_header_votes_again`: a header that a waiter gives back after the garbage
  collector has passed its round gets a second vote for the author and the round;
* `genesis_passes`: whoever sends a certificate that looks like one of the genesis
  gets it to the consensus, without any signature, and with overflow checks the
  consensus panics.
-/

namespace StablecoinSystem.Primary

variable {cfg : PrimaryConfig} {s : Core}

/-! ### Votes that are late -/

lemma expect_panics {result : Core × Outcome} (h : result.2 = .panic) :
    (expect result).2 = .panic := by
  obtain ⟨s, outcome⟩ := result
  cases h
  rfl

lemma Core.processCertificateWith_panics {f : Core → Header → Core × Outcome}
    {c : CertifiedHeader} (hnot : (c.header.round, c.header.id) ∉ s.processing)
    (hpanic : (f s c.header).2 = .panic) : (s.processCertificateWith cfg f c).2 = .panic := by
  rw [processCertificateWith, if_neg hnot]
  cases hresult : f s c.header with
  | mk s' outcome =>
      rw [hresult] at hpanic
      cases hpanic
      rfl

/-- A second vote of the primary for itself makes `process_header` panic. -/
lemma Core.processHeader_panics {h : Header} {parents : List CertifiedHeader}
    (haccepts : s.Accepts cfg h parents) (hnew : (h.round, h.author) ∉ s.lastVoted)
    (hown : h.author = s.name) (hcounted : s.name ∈ s.votesAggregator.used) :
    (s.processHeader cfg h).2 = .panic := by
  rw [processHeader, processHeaderWithin]
  rcases examineHeader_cases cfg s h with ⟨-, ⟨hvoted, -⟩ | ⟨-, heq⟩⟩ | ⟨hnot, -⟩
  · exact absurd hvoted hnew
  · have horigin : (cfg.newVote h s.name).origin =
        (((s.mark h).keep h).castVote cfg h).name := hown
    have hused : (cfg.newVote h s.name).author ∈
        (((s.mark h).keep h).castVote cfg h).votesAggregator.used := hcounted
    rw [heq]
    simp only [handleVote]
    rw [if_pos horigin, processVoteWith_of_used _ hused]
    rfl
  · exact absurd ⟨parents, haccepts⟩ hnot

/-- A header of another primary that is accepted is voted for, if the core remembers no
vote. -/
lemma Core.processHeader_votes {h : Header} {parents : List CertifiedHeader}
    (haccepts : s.Accepts cfg h parents) (hnew : (h.round, h.author) ∉ s.lastVoted)
    (hother : h.author ≠ s.name) (hkeys : h.author ∈ cfg.committee.keys) :
    s.processHeader cfg h = (((s.mark h).keep h).castVote cfg h, .done) := by
  rw [processHeader, processHeaderWithin]
  rcases examineHeader_cases cfg s h with ⟨-, ⟨hvoted, -⟩ | ⟨-, heq⟩⟩ | ⟨hnot, -⟩
  · exact absurd hvoted hnew
  · have horigin : (cfg.newVote h s.name).origin ≠
        (((s.mark h).keep h).castVote cfg h).name := hother
    have hmember : (cfg.newVote h s.name).origin ∈ cfg.committee.keys := hkeys
    rw [heq]
    simp only [handleVote]
    rw [if_neg horigin, if_pos hmember]
  · exact absurd ⟨parents, haccepts⟩ hnot

/-- A vote that completes the quorum of a header that the core has proposed and
forgotten. -/
lemma Core.receiveVote_panics {vote : Vote} {parents : List CertifiedHeader}
    (hown : s.currentHeader.author = s.name)
    (haccepts : s.Accepts cfg s.currentHeader parents)
    (hcounted : s.name ∈ s.votesAggregator.used) (hlate : s.currentHeader.round < s.gcRound)
    (hswept : Swept s.gcRound s.lastVoted s.processing)
    (hvote : s.sanitizeVote cfg vote = .ok ()) (hnew : vote.author ∉ s.votesAggregator.used)
    (hquorum : cfg.committee.quorumThreshold ≤
      (s.votesAggregator.weight + cfg.committee.stake vote.author) % 2 ^ 32) :
    (s.receiveVote cfg vote).2 = .panic := by
  have hforgotten : (s.currentHeader.round, s.currentHeader.id) ∉ s.processing := fun hmem =>
    absurd (hswept.processing _ hmem) (not_le.mpr hlate)
  rw [receiveVote, hvote]
  simp only [processVote, processVoteWith]
  rcases s.votesAggregator.append_cases vote cfg.committee s.currentHeader with
    ⟨hused, -⟩ | ⟨-, hless, -⟩ | ⟨-, -, happend⟩
  · exact absurd hused hnew
  · exact absurd hquorum (not_le.mpr hless)
  · rw [happend]
    have haccepts' : ∀ agg c, ((s.count agg).broadcast c).Accepts cfg s.currentHeader parents :=
      fun _ _ => ⟨haccepts.found, haccepts.rounds, haccepts.quorum, haccepts.payload⟩
    exact expect_panics (processCertificateWith_panics hforgotten
      (processHeader_panics (haccepts' _ _)
        (fun hmem => absurd (hswept.lastVoted _ hmem) (not_le.mpr hlate)) hown
        (List.mem_append_left _ hcounted)))

section Reachable

variable {faulty : Finset ℕ} {pool : Set Header} {g : ℕ → Node} {name : ℕ}
  (hfaulty : 3 * cfg.committee.weight faulty < cfg.committee.totalVotes)
  (hfree : cfg.CollisionFree pool) (hg : Reachable cfg faulty pool g)
  (hname : Honest cfg faulty name)
include hfaulty hfree hg hname

/-- **A quorum that is late makes the primary panic.** Whenever the garbage collector of
an honest primary has passed the round of its current header, any vote that completes
the quorum for that header stops it. -/
theorem late_quorum_panics (hproposed : (g name).core.headers ≠ [])
    (hlate : (g name).core.currentHeader.round < (g name).core.gcRound) {vote : Vote}
    (hvote : (g name).core.sanitizeVote cfg vote = .ok ())
    (hnew : vote.author ∉ (g name).core.votesAggregator.used)
    (hquorum : cfg.committee.quorumThreshold ≤
      ((g name).core.votesAggregator.weight + cfg.committee.stake vote.author) % 2 ^ 32) :
    ((g name).step cfg (.vote vote)).halted = true := by
  have hn := (hg.inv hfaulty hfree name hname).2
  have hmem : (g name).core.currentHeader ∈ (g name).core.headers :=
    hn.core.proposals.current.resolve_right fun hnone => hproposed hnone.1
  have hown := hn.core.proposals.valid _ hmem
  obtain ⟨parents, haccepts⟩ := hown.accepts hn.core.archive
  have hpanic := Core.receiveVote_panics hown.author haccepts (hn.counted hproposed) hlate
    hn.swept hvote hnew hquorum
  rw [Node.step, if_neg (by simp [hn.running]), Node.handle]
  cases hresult : (g name).core.receiveVote cfg vote with
  | mk s outcome =>
      rw [hresult] at hpanic
      cases hpanic
      rfl

/-- **A header that is given back late is voted for again.** The primary has voted for
another header of the author and the round, and the garbage collector has made it
forget that. -/
theorem stale_header_votes_again {i : ℕ} {h : Header} {parents : List CertifiedHeader} {v : Vote}
    (hwaits : (g name).core.headerWaiter[i]? = some h)
    (hstale : h.round < (g name).core.gcRound) (hother : h.author ≠ name)
    (haccepts : (g name).core.Accepts cfg h parents) (hv : v ∈ (g name).core.votes)
    (hround : v.round = h.round) (horigin : v.origin = h.author) :
    ((g name).step cfg (.headerLoopback i)).core.votes =
        (g name).core.votes ++ [cfg.newVote h name] ∧
      ¬(((g name).step cfg (.headerLoopback i)).core.votes.map fun v =>
        (v.round, v.origin)).Nodup := by
  obtain ⟨hcore, hn⟩ := hg.inv hfaulty hfree name hname
  have hvotes : ((g name).step cfg (.headerLoopback i)).core.votes =
      (g name).core.votes ++ [cfg.newVote h name] := by
    have hkeys := (hn.core.waiters.header h (List.mem_of_getElem? hwaits)).author_mem
    have haccepts' : { (g name).core with
        headerWaiter := (g name).core.headerWaiter.eraseIdx i }.Accepts cfg h parents :=
      ⟨haccepts.found, haccepts.rounds, haccepts.quorum, haccepts.payload⟩
    have hresult := Core.processHeader_votes haccepts'
      (fun hmem => absurd (hn.swept.lastVoted _ hmem) (not_le.mpr hstale))
      (fun heq => hother (heq.trans hcore)) hkeys
    rw [Node.step, if_neg (by simp [hn.running]), Node.handle, Node.loopHeader, hwaits]
    simp only [hresult]
    rw [Node.conclude_eq cfg _ (by simp), (Core.cleanup_logs ..).2.2.1]
    exact congrArg (fun signer => (g name).core.votes ++ [cfg.newVote h signer]) hcore
  refine ⟨hvotes, fun hnodup => ?_⟩
  rw [hvotes, List.map_append, List.nodup_append] at hnodup
  exact hnodup.2.2 _ (List.mem_map_of_mem hv) _ (List.mem_singleton_self _)
    (by rw [hround, horigin]; rfl)

end Reachable

lemma fourPrimaries_sorted :
    (([(0, 1), (1, 1), (2, 1), (3, 1)] : List (ℕ × ℕ)).map Prod.fst).Pairwise (· < ·) := by
  decide

/-- Four primaries of one vote each, and a short memory. -/
def fourPrimaries : PrimaryConfig where
  committee := ⟨[(0, 1), (1, 1), (2, 1), (3, 1)], fourPrimaries_sorted⟩
  workers := fun _ => [0]
  headerSize := 1000
  gcDepth := 1
  crypto := Crypto.coded

lemma fourPrimaries_faulty :
    3 * fourPrimaries.committee.weight {1} < fourPrimaries.committee.totalVotes := by
  decide

lemma fourPrimaries_collisionFree : fourPrimaries.CollisionFree Set.univ :=
  PrimaryConfig.collisionFree_coded rfl

lemma fourPrimaries_honest : Honest fourPrimaries {1} 0 := by
  unfold Honest
  decide

/-- A header of the first round. -/
def firstHeader (author : ℕ) (payload : List (ℕ × ℕ)) : Header :=
  { Proposer.new fourPrimaries with digests := payload }.makeHeader fourPrimaries author

/-- The first primary has proposed a header when it learns that the consensus is at
round three. -/
def behind : ℕ → Node :=
  Function.update (Node.start fourPrimaries) 0
    ([.timer, .ownHeader, .committed 3].foldl (Node.step fourPrimaries)
      (Node.start fourPrimaries 0))

/-- It has received one vote since then. -/
def oneVote : ℕ → Node :=
  Function.update behind 0
    ((behind 0).step fourPrimaries (.vote (fourPrimaries.newVote (firstHeader 0 []) 1)))

lemma reachable_oneVote : Reachable fourPrimaries {1} Set.univ oneVote := by
  have hbehind : Reachable fourPrimaries {1} Set.univ behind := by
    unfold behind
    exact reachable_start.unaided fourPrimaries_honest (by decide)
  unfold oneVote
  refine hbehind.step fourPrimaries_honest (fun _ hhonest => absurd ?_ hhonest.2) ?_ trivial
    (pooled_univ _ _)
  · exact Finset.mem_singleton_self 1
  · exact fun _ => by decide +kernel

/-- The vote of the third primary comes after the garbage collection. -/
theorem late_quorum_panics_oneVote :
    (oneVote 0).halted = false ∧ ((oneVote 0).step fourPrimaries
      (.vote (fourPrimaries.newVote (firstHeader 0 []) 2))).halted = true :=
  ⟨by decide +kernel, late_quorum_panics fourPrimaries_faulty fourPrimaries_collisionFree
    reachable_oneVote fourPrimaries_honest (by decide +kernel) (by decide +kernel)
    (by decide +kernel) (by decide +kernel) (by decide +kernel)⟩

/-- The second primary has sent two headers of one round. The batch of the first comes
after the garbage collection. -/
def equivocated : ℕ → Node :=
  Function.update (Node.start fourPrimaries) 0
    ([.header (firstHeader 1 [(7, 0)]), .header (firstHeader 1 []), .committed 3, .timer,
      .ownHeader, .othersDigest 7 0].foldl (Node.step fourPrimaries)
        (Node.start fourPrimaries 0))

lemma reachable_equivocated : Reachable fourPrimaries {1} Set.univ equivocated := by
  unfold equivocated
  exact reachable_start.unaided fourPrimaries_honest (by decide)

lemma accepts_equivocated : (equivocated 0).core.Accepts fourPrimaries (firstHeader 1 [(7, 0)])
    fourPrimaries.genesis where
  found := Core.findParents_eq_ok.mp (by rfl)
  rounds := by decide +kernel
  quorum := by decide +kernel
  payload := by decide +kernel

theorem stale_header_votes_again_equivocated :
    (equivocated 0).core.votes.map (fun v => (v.round, v.origin)) = [(1, 1), (1, 0)] ∧
      ¬(((equivocated 0).step fourPrimaries (.headerLoopback 0)).core.votes.map fun v =>
        (v.round, v.origin)).Nodup :=
  ⟨by decide +kernel, (stale_header_votes_again (v := fourPrimaries.newVote (firstHeader 1 []) 0)
    fourPrimaries_faulty fourPrimaries_collisionFree reachable_equivocated fourPrimaries_honest rfl
    (by decide +kernel) (by decide +kernel) accepts_equivocated (by decide +kernel) rfl rfl).2⟩

/-! ### Certificates of round zero -/

/-- A certificate without parents that looks like one of the genesis. -/
structure Lookalike (cfg : PrimaryConfig) (c : CertifiedHeader) : Prop where
  id : c.header.id = 0
  round : c.round = 0
  origin : c.origin ∈ cfg.committee.members
  parents : c.header.parents = []

/-- A lookalike passes the check and is delivered. -/
lemma Lookalike.receiveCertificate {c : CertifiedHeader} (hlook : Lookalike cfg c)
    (hgc : s.gcRound = 0) :
    ∃ t, s.receiveCertificate cfg c = (t, .done) ∧ t.consensus = s.consensus ++ [c] := by
  have hsanitize : s.sanitizeCertificate cfg c = .ok () := by
    rw [Core.sanitizeCertificate, if_pos (hgc ▸ Nat.zero_le _)]
    exact PrimaryConfig.verifyCertificate_eq_ok.mpr
      (Or.inl ⟨hlook.id, hlook.round, hlook.origin⟩)
  have hfinish : ∀ t : Core, t.finishCertificate cfg c = t.deliver cfg c := fun t => by
    rw [Core.finishCertificate, hlook.parents]
    rfl
  rw [Core.receiveCertificate, hsanitize]
  simp only [Core.processCertificate, Core.processCertificateWith,
    Core.processHeader_of_nil cfg s hlook.parents, hfinish]
  split
  · exact ⟨_, rfl, rfl⟩
  · exact ⟨_, rfl, rfl⟩

/-- **Certificates of round zero reach the consensus unchecked.** As long as the garbage
collector has not moved, a certificate that looks like one of the genesis is delivered,
whatever its votes, and with overflow checks the consensus panics. -/
theorem genesis_passes (cfg : PrimaryConfig) (n : Node) (c : CertifiedHeader)
    (hlook : Lookalike cfg c) (hrunning : n.halted = false) (hgc : n.core.gcRound = 0) :
    (n.step cfg (.certificate c)).feed = n.feed ++ [c.toCertificate] ∧
      ((consensusOf cfg true).run (n.step cfg (.certificate c)).feed).halted = true := by
  have hfeed : (n.step cfg (.certificate c)).feed = n.feed ++ [c.toCertificate] := by
    obtain ⟨t, hresult, hconsensus⟩ := hlook.receiveCertificate hgc
    rw [Node.step, if_neg (by simp [hrunning]), Node.handle, hresult,
      Node.conclude_eq cfg n (by simp), Node.feed, (Core.cleanup_logs ..).2.2.2, hconsensus,
      List.map_append]
    rfl
  refine ⟨hfeed, ?_⟩
  rw [hfeed, Consensus.run, List.foldl_append, List.foldl_cons, List.foldl_nil,
    Consensus.receive]
  split
  · assumption
  · rw [CertifiedHeader.round_toCertificate, if_pos hlook.round]
    rfl

lemma sorted_oneBatch : ([(7, 0)].map Prod.fst).Pairwise (· < ·) := List.pairwise_singleton ..

/-- A certificate that nobody has signed, with a batch. -/
def unsigned : CertifiedHeader :=
  ⟨⟨1, 0, [(7, 0)], [], 0, 0, sorted_oneBatch, Header.sorted_noParents⟩, []⟩

theorem genesis_passes_unsigned :
    ((Node.start twoPrimaries 0).step twoPrimaries (.certificate unsigned)).feed =
        [unsigned.toCertificate] ∧
      ((consensusOf twoPrimaries true).run ((Node.start twoPrimaries 0).step twoPrimaries
        (.certificate unsigned)).feed).halted = true :=
  genesis_passes twoPrimaries (Node.start twoPrimaries 0) unsigned
    ⟨rfl, rfl, by decide, rfl⟩ rfl rfl

end StablecoinSystem.Primary
