import StablecoinSystem.Primary.Invariant
import StablecoinSystem.Primary.Node

/-!
The handlers of the core keep its invariant and do not panic.

A vote of the primary for itself is made for its own header when it is proposed and
never again: it has voted for its earlier headers, and nobody else can sign one in its
name. So a certificate that is assembled is one of the current header, which is being
processed, and `process_header` is not called again. Before its first header, the
current one has no parents, and `process_header` drops it.

* `Turn`: how a handler ends;
* `Core.Inv.processHeader`, `Core.Inv.processCertificate`: headers and certificates
  that were checked;
* `Core.Inv.receiveVote`, `Core.Inv.processOwnHeader`: where certificates are
  assembled.
-/

namespace StablecoinSystem.Primary

variable {cfg : PrimaryConfig} {pool : Set Header} {Signed : ℕ → ℕ → Prop} {s s' s'' : Core}

/-- The digests that a primary has signed and shown: of its headers and its votes. -/
def Core.published (cfg : PrimaryConfig) (s : Core) : List ℕ :=
  s.headers.map Header.id ++ s.votes.map cfg.voteDigest

/-- A core goes on: it may have voted, counted votes and delivered certificates. -/
structure Core.Extends (s s' : Core) : Prop where
  name : s'.name = s.name
  gcRound : s'.gcRound = s.gcRound
  headers : s'.headers = s.headers
  current : s'.currentHeader = s.currentHeader
  votes : s.votes <+: s'.votes
  used : s.votesAggregator.used <+: s'.votesAggregator.used
  consensus : s.consensus <+: s'.consensus

namespace Core.Extends

lemma refl (s : Core) : s.Extends s :=
  ⟨rfl, rfl, rfl, rfl, List.prefix_refl _, List.prefix_refl _, List.prefix_refl _⟩

lemma trans (h : s.Extends s') (h' : s'.Extends s'') : s.Extends s'' :=
  ⟨h'.name.trans h.name, h'.gcRound.trans h.gcRound, h'.headers.trans h.headers,
    h'.current.trans h.current, h.votes.trans h'.votes, h.used.trans h'.used,
    h.consensus.trans h'.consensus⟩

lemma finishCertificate (cfg : PrimaryConfig) (s : Core) (c : CertifiedHeader) :
    s.Extends (s.finishCertificate cfg c) := by
  rw [Core.finishCertificate]
  split
  · exact { refl s with consensus := List.prefix_append _ _ }
  · exact { refl s with }

end Core.Extends

/-- A handler ends without a panic and keeps the invariant. -/
structure Turn (cfg : PrimaryConfig) (pool : Set Header) (Signed : ℕ → ℕ → Prop) (s : Core)
    (result : Core × Outcome) : Prop where
  outcome : result.2 ≠ .panic
  inv : result.1.Inv cfg pool Signed
  grows : s.Extends result.1

/-- Nothing happens. -/
lemma Turn.error (hs : s.Inv cfg pool Signed) (e : DagError) :
    Turn cfg pool Signed s (s, .error e) :=
  ⟨by simp, hs, .refl s⟩

/-! ### Headers and certificates of others -/

lemma ValidHeader.digest {h : Header} (hv : ValidHeader cfg pool Signed h) :
    cfg.headerDigest h = h.id :=
  (PrimaryConfig.verifyHeader_eq_ok.mp hv.verify).1

lemma ValidHeader.author_mem {h : Header} (hv : ValidHeader cfg pool Signed h) :
    h.author ∈ cfg.committee.keys := by
  have hstake := (PrimaryConfig.verifyHeader_eq_ok.mp hv.verify).2.1
  exact List.mem_toFinset.mp
    (Committee.mem_members_of_stake_pos (Nat.pos_of_ne_zero hstake))

/-- A header in the name of the primary is one that it proposed, and has voted for. -/
lemma Core.Inv.voted_of_own {h : Header} (hs : s.Inv cfg pool Signed)
    (hfree : cfg.CollisionFree pool) (hv : ValidHeader cfg pool Signed h)
    (hown : ∀ digest, Signed s.name digest → digest ∈ s.published cfg)
    (hle : s.gcRound ≤ h.round) (hauthor : h.author = s.name) :
    (h.round, h.author) ∈ s.lastVoted := by
  have hpublished := hown h.id (hauthor ▸ hv.signed)
  rw [published, List.mem_append] at hpublished
  rcases hpublished with hheader | hvote
  · obtain ⟨o, ho, hid⟩ := List.mem_map.mp hheader
    have hdigest := (PrimaryConfig.verifyHeader_eq_ok.mp (hs.proposals.valid o ho).verify).1
    have hround := (hfree.header o (hs.proposals.valid o ho).mem h hv.mem
      (hdigest.trans (hid.trans hv.digest.symm))).2.1
    obtain ⟨v, hvmem, hvround, hvorigin⟩ := hs.proposals.voted o ho
    have hmem := hs.ballots.remembered v hvmem (by omega)
    rwa [hvround, hvorigin, hround, ← hauthor] at hmem
  · obtain ⟨v, hvmem, heq⟩ := List.mem_map.mp hvote
    obtain ⟨o, hmem, rfl, -⟩ := hs.ballots.justified v hvmem
    exact absurd (hv.digest.trans heq.symm) (hfree.vote h hv.mem o (Or.inl hmem))

namespace Core.Inv

section

variable {h : Header} {c : CertifiedHeader} (hs : s.Inv cfg pool Signed)
  (hfree : cfg.CollisionFree pool)
include hs hfree

/-- A header that was checked, not one of the primary itself that it has not voted for. -/
lemma processHeader (hv : ValidHeader cfg pool Signed h) (hle : s.gcRound ≤ h.round)
    (hvoted : h.author = s.name → (h.round, h.author) ∈ s.lastVoted) :
    Turn cfg pool Signed s (s.processHeader cfg h) := by
  rw [Core.processHeader, processHeaderWithin]
  rcases examineHeader_cases cfg s h with ⟨⟨parents, ha⟩, ⟨-, heq⟩ | ⟨hnew, heq⟩⟩ |
    ⟨-, outcome, houtcome, heq | heq⟩
  · rw [heq]
    exact ⟨by simp, (hs.mark h).keep hfree hv.mem hv.digest, { Extends.refl s with }⟩
  · have hother : h.author ≠ s.name := fun hauthor => hnew (hvoted hauthor)
    obtain ⟨hround, hq⟩ := ha.quorate hs.archive
    have horigin : (cfg.newVote h s.name).origin ≠
        (((s.mark h).keep h).castVote cfg h).name := hother
    have hkeys : (cfg.newVote h s.name).origin ∈ cfg.committee.keys := hv.author_mem
    rw [heq]
    simp only [handleVote]
    rw [if_neg horigin, if_pos hkeys]
    exact ⟨by simp, ((hs.mark h).keep hfree hv.mem hv.digest).castVote hnew hle hother hv.mem
      hv.digest hround ⟨parents, hq⟩, { Extends.refl s with votes := List.prefix_append _ _ }⟩
  · rw [heq]
    exact ⟨houtcome, hs.mark h, { Extends.refl s with }⟩
  · rw [heq]
    exact ⟨houtcome, (hs.mark h).suspend hv, { Extends.refl s with }⟩

lemma processCertificate (hv : ValidCertificate cfg pool Signed c) (hle : s.gcRound ≤ c.round)
    (hvoted : c.header.author = s.name → (c.header.round, c.header.author) ∈ s.lastVoted) :
    Turn cfg pool Signed s (s.processCertificate cfg c) := by
  rw [Core.processCertificate, processCertificateWith]
  split
  · exact ⟨by simp, hs.finishCertificate (Or.inl hv), .finishCertificate cfg s c⟩
  · have hturn := hs.processHeader hfree hv.header hle hvoted
    split
    · rename_i s' heq
      rw [heq] at hturn
      exact ⟨by simp, hturn.inv.finishCertificate (Or.inl hv),
        hturn.grows.trans (.finishCertificate cfg s' c)⟩
    · rename_i s' outcome hdone heq
      rwa [heq] at hturn

lemma receiveHeader (hown : ∀ digest, Signed s.name digest → digest ∈ s.published cfg)
    (hpool : cfg.verifyHeader h = .ok () → h ∈ pool)
    (hsigned : cfg.verifyHeader h = .ok () → Signed h.author h.id) :
    Turn cfg pool Signed s (s.receiveHeader cfg h) := by
  rw [Core.receiveHeader, sanitizeHeader]
  by_cases hle : s.gcRound ≤ h.round
  · rw [if_pos hle]
    cases hverify : cfg.verifyHeader h with
    | error e => exact .error hs e
    | ok _ =>
        have hv : ValidHeader cfg pool Signed h := ⟨hpool hverify, hverify, hsigned hverify⟩
        exact hs.processHeader hfree hv hle (hs.voted_of_own hfree hv hown hle)
  · rw [if_neg hle]
    exact .error hs _

lemma receiveCertificate (hown : ∀ digest, Signed s.name digest → digest ∈ s.published cfg)
    (hpool : cfg.verifyHeader c.header = .ok () → c.header ∈ pool)
    (hsigned : cfg.verifyCertificate c = .ok () → 1 ≤ c.round ∧
      Signed c.header.author c.header.id ∧
      ∀ vote ∈ c.votes, Signed vote.1 (cfg.certificateDigest c)) :
    Turn cfg pool Signed s (s.receiveCertificate cfg c) := by
  rw [Core.receiveCertificate, sanitizeCertificate]
  by_cases hle : s.gcRound ≤ c.round
  · rw [if_pos hle]
    cases hverify : cfg.verifyCertificate c with
    | error e => exact .error hs e
    | ok _ =>
        obtain ⟨hround, hheader, hvotes⟩ := hsigned hverify
        obtain ⟨hok, hquorum⟩ := PrimaryConfig.verifyCertificate_of_pos hround hverify
        have hv : ValidCertificate cfg pool Signed c :=
          ⟨hround, ⟨hpool hok, hok, hheader⟩, hquorum.toEndorsed, hvotes⟩
        exact hs.processCertificate hfree hv hle (hs.voted_of_own hfree hv.header hown hle)
  · rw [if_neg hle]
    exact .error hs _

end

end Core.Inv

/-! ### Votes -/

/-- A vote for a header that verifies. -/
structure ValidVote (cfg : PrimaryConfig) (Signed : ℕ → ℕ → Prop) (header : Header) (vote : Vote) :
    Prop where
  stake : cfg.committee.stake vote.author ≠ 0
  verify : cfg.crypto.verify vote.signature
    (cfg.crypto.voteHash header.id header.round header.author) vote.author = true
  signed : Signed vote.author (cfg.crypto.voteHash header.id header.round header.author)

/-- What passes `sanitize_vote`. -/
lemma sanitizeVote_eq_ok {v : Vote} : s.sanitizeVote cfg v = .ok () ↔
    (v.id = s.currentHeader.id ∧ v.origin = s.currentHeader.author ∧
      v.round = s.currentHeader.round) ∧ cfg.verifyVote v = .ok () := by
  rw [Core.sanitizeVote]
  by_cases hexpected : v.id = s.currentHeader.id ∧ v.origin = s.currentHeader.author ∧
      v.round = s.currentHeader.round
  · rw [if_pos hexpected.2.2.ge, if_pos hexpected]
    exact (and_iff_right hexpected).symm
  · rw [if_neg hexpected]
    split <;> simp [hexpected]

/-- A certificate of a header without parents is delivered at once. -/
lemma Core.processCertificateWith_of_nil {f : Core → Header → Core × Outcome}
    {c : CertifiedHeader} (s : Core) (hf : ∀ t, f t c.header = (t.mark c.header, .done)) :
    s.processCertificateWith cfg f c = (s.finishCertificate cfg c, .done) ∨
      s.processCertificateWith cfg f c = ((s.mark c.header).finishCertificate cfg c, .done) := by
  rw [Core.processCertificateWith]
  split
  · exact Or.inl rfl
  · rw [hf]
    exact Or.inr rfl

namespace Core.Inv

variable {h : Header} {vote : Vote} (hs : s.Inv cfg pool Signed)
include hs

lemma count {agg : VotesAggregator} (hp : Poll cfg Signed s.currentHeader agg) :
    (s.count agg).Inv cfg pool Signed :=
  { hs with poll := hp }

lemma broadcast {c : CertifiedHeader} (hcert : Certified cfg pool Signed c) :
    (s.broadcast c).Inv cfg pool Signed :=
  { hs with feed := { hs.feed with
      broadcast := List.forall_mem_append.mpr
        ⟨hs.feed.broadcast, List.forall_mem_singleton.mpr hcert⟩ } }

/-- A certificate that was assembled, if its header is being processed or has no
parents. -/
lemma assembled {f : Core → Header → Core × Outcome} {c : CertifiedHeader}
    (hcert : Certified cfg pool Signed c)
    (hheader : (c.header.round, c.header.id) ∈ s.processing ∨
      ∀ t : Core, f t c.header = (t.mark c.header, .done)) :
    (s.processCertificateWith cfg f c).2 = .done ∧
      (s.processCertificateWith cfg f c).1.Inv cfg pool Signed ∧
      s.Extends (s.processCertificateWith cfg f c).1 := by
  have hdone : s.processCertificateWith cfg f c = (s.finishCertificate cfg c, .done) ∨
      s.processCertificateWith cfg f c = ((s.mark c.header).finishCertificate cfg c, .done) :=
    hheader.elim (fun hmem => Or.inl (processCertificateWith_of_mem f s hmem))
      (processCertificateWith_of_nil s)
  rcases hdone with heq | heq
  · rw [heq]
    exact ⟨rfl, hs.finishCertificate hcert, .finishCertificate cfg s c⟩
  · have hmark : s.Extends (s.mark c.header) := { Extends.refl s with }
    rw [heq]
    exact ⟨rfl, (hs.mark c.header).finishCertificate hcert,
      hmark.trans (.finishCertificate cfg (s.mark c.header) c)⟩

/-- Counting a vote for the current header. Only a second vote of an authority fails,
and afterwards the authority has been counted. -/
lemma processVoteWith (f : Core → Header → Core × Outcome)
    (hv : ValidVote cfg Signed s.currentHeader vote)
    (hcurrent : s.currentHeader ∈ s.headers ∧ Signed s.name s.currentHeader.id ∧
        (s.currentHeader.round, s.currentHeader.id) ∈ s.processing ∨
      s.currentHeader = Header.default ∧
        ∀ t, f t Header.default = (t.mark Header.default, .done)) :
    Turn cfg pool Signed s (s.processVoteWith cfg f vote) ∧
      (vote.author ∉ s.votesAggregator.used → (s.processVoteWith cfg f vote).2 = .done) ∧
      vote.author ∈ (s.processVoteWith cfg f vote).1.votesAggregator.used := by
  have hle := Nat.mod_le (s.votesAggregator.weight + cfg.committee.stake vote.author) (2 ^ 32)
  rcases s.votesAggregator.append_cases vote cfg.committee s.currentHeader with
    ⟨hused, -⟩ | ⟨hnew, -, happend⟩ | ⟨hnew, hquorum, happend⟩
  -- Second vote of the author; first vote, no quorum yet; the vote that completes one.
  · rw [processVoteWith_of_used f hused]
    exact ⟨.error hs _, fun hnew => absurd hused hnew, hused⟩
  · rw [Core.processVoteWith, happend]
    have hpoll := hs.poll.append hnew hv.stake hv.verify hv.signed hle
    exact ⟨⟨by simp, hs.count hpoll, { Extends.refl s with used := List.prefix_append _ _ }⟩,
      fun _ => rfl, List.mem_append_right _ (List.mem_singleton_self _)⟩
  · have hpoll := hs.poll.append hnew hv.stake hv.verify hv.signed (Nat.zero_le _)
    -- The aggregator compares a wrapped weight, so the true sum is at least as large.
    have hsum : cfg.committee.quorumThreshold ≤
        ((s.votesAggregator.votes ++ [(vote.author, vote.signature)]).map fun vote =>
          cfg.committee.stake vote.1).sum := by
      have := hs.poll.weight
      rw [List.map_append, List.sum_append, List.map_singleton, List.sum_singleton]
      simp only
      omega
    -- `Core` starts with a header made by `default`; votes for it give a blank certificate.
    have hcert : Certified cfg pool Signed
        ⟨s.currentHeader, s.votesAggregator.votes ++ [(vote.author, vote.signature)]⟩ := by
      rcases hcurrent with ⟨hmem, hsigned, -⟩ | ⟨hdefault, -⟩
      · exact Or.inl (hpoll.validCertificate hsum (hs.proposals.valid _ hmem) hsigned)
      · exact Or.inr ⟨hdefault, hpoll.endorsed hsum, hpoll.signed⟩
    have hheader : (s.currentHeader.round, s.currentHeader.id) ∈ s.processing ∨
        ∀ t, f t s.currentHeader = (t.mark s.currentHeader, .done) := by
      rcases hcurrent with ⟨-, -, hprocessing⟩ | ⟨hdefault, hf⟩
      · exact Or.inl hprocessing
      · exact Or.inr (hdefault ▸ hf)
    obtain ⟨hdone, hinv, hextends⟩ :=
      ((hs.count hpoll).broadcast hcert).assembled (f := f) hcert hheader
    rw [Core.processVoteWith, happend]
    simp only
    rw [expect_eq_self hdone]
    refine ⟨⟨by simp [hdone], hinv, Extends.trans ?_ hextends⟩, fun _ => hdone,
      hextends.used.subset (List.mem_append_right _ (List.mem_singleton_self _))⟩
    exact { Extends.refl s with used := List.prefix_append _ _ }

/-- A vote from another primary. -/
lemma receiveVote (hpublished : ∀ digest ∈ s.published cfg, Signed s.name digest)
    (hsigned : cfg.verifyVote vote = .ok () → Signed vote.author (cfg.voteDigest vote))
    (htimely : s.sanitizeVote cfg vote = .ok () → s.gcRound ≤ s.currentHeader.round) :
    Turn cfg pool Signed s (s.receiveVote cfg vote) := by
  rw [Core.receiveVote]
  cases hsanitize : s.sanitizeVote cfg vote with
  | error e => exact .error hs e
  | ok _ =>
      obtain ⟨⟨hid, horigin, hround⟩, hverify⟩ := sanitizeVote_eq_ok.mp hsanitize
      have hdigest : cfg.voteDigest vote = cfg.crypto.voteHash s.currentHeader.id
          s.currentHeader.round s.currentHeader.author := by
        rw [PrimaryConfig.voteDigest, hid, horigin, hround]
      obtain ⟨hstake, hok⟩ := PrimaryConfig.verifyVote_eq_ok.mp hverify
      refine (hs.processVoteWith _ ⟨hstake, hdigest ▸ hok, hdigest ▸ hsigned hverify⟩ ?_).1
      refine hs.proposals.current.imp (fun hmem => ⟨hmem, ?_, ?_⟩) fun hdefault =>
        ⟨hdefault.2, fun t => processHeader_of_nil cfg t rfl⟩
      · exact hpublished _ (List.mem_append_left _ (List.mem_map_of_mem hmem))
      · exact hs.proposals.processed _ hmem (htimely hsanitize)

/-- The primary has voted for a new header of its own, above the rounds of the
earlier ones. -/
lemma voteForOwn (hfree : cfg.CollisionFree pool)
    (ho : OwnHeader cfg pool s.name s.consensus h)
    (habove : ∀ o ∈ s.headers, o.round < h.round)
    (hfresh : ∀ v ∈ s.votes, (v.round, v.origin) ≠ (h.round, h.author)) :
    ((((s.propose h).mark h).keep h).castVote cfg h).Inv cfg pool Signed := by
  have hdigest : cfg.headerDigest h = h.id := (PrimaryConfig.verifyHeader_eq_ok.mp ho.verify).1
  have hmem : h ∈ s.headers ++ [h] := List.mem_append_right _ (List.mem_singleton_self h)
  refine { hs with
    archive := (hs.keep hfree ho.mem hdigest).archive
    ballots := hs.ballots.cast (fun o homem => List.mem_append_left _ homem) hfresh ho.mem hdigest
      ho.round ho.quorate fun _ => ⟨h, hmem, rfl⟩
    proposals := ⟨?_, ?_, ?_, ?_, Or.inl hmem⟩
    poll := poll_new h }
  · exact List.forall_mem_append.mpr ⟨hs.proposals.valid, List.forall_mem_singleton.mpr ho⟩
  · refine List.pairwise_append.mpr ⟨hs.proposals.increasing, List.pairwise_singleton _ _, ?_⟩
    exact fun o homem h' hh' => List.mem_singleton.mp hh' ▸ habove o homem
  · refine List.forall_mem_append.mpr ⟨fun o homem hle => List.mem_cons_of_mem _
      (hs.proposals.processed o homem hle), List.forall_mem_singleton.mpr fun _ => ?_⟩
    exact List.mem_cons_self ..
  · refine List.forall_mem_append.mpr ⟨fun o homem => ?_, List.forall_mem_singleton.mpr ?_⟩
    · obtain ⟨v, hv, hvo⟩ := hs.proposals.voted o homem
      exact ⟨v, List.mem_append_left _ hv, hvo⟩
    · exact ⟨_, List.mem_append_right _ (List.mem_singleton_self _), rfl, ho.author⟩

/-- A header of the primary itself. It goes on from the vote for it, which is counted. -/
lemma processOwnHeader (hfree : cfg.CollisionFree pool)
    (ho : OwnHeader cfg pool s.name s.consensus h)
    (habove : ∀ o ∈ s.headers, o.round < h.round)
    (hstake : cfg.committee.stake s.name ≠ 0) (hheader : Signed s.name h.id)
    (hvote : Signed s.name (cfg.crypto.voteHash h.id h.round h.author)) :
    Turn cfg pool Signed ((((s.propose h).mark h).keep h).castVote cfg h)
        (s.processOwnHeader cfg h) ∧
      s.name ∈ (s.processOwnHeader cfg h).1.votesAggregator.used := by
  -- Own rounds increase, so no own header of this round has been voted for.
  have hfresh : ∀ v ∈ s.votes, (v.round, v.origin) ≠ (h.round, h.author) := by
    intro v hv heq
    rw [Prod.mk.injEq] at heq
    obtain ⟨o, homem, horound⟩ := hs.ballots.own v hv (heq.2.trans ho.author)
    have := habove o homem
    omega
  have hnew : (h.round, h.author) ∉ s.lastVoted := by
    intro hmem
    obtain ⟨v, hv, heq⟩ := hs.ballots.voted _ hmem
    exact hfresh v hv heq
  obtain ⟨parents, haccepts⟩ := ho.accepts hs.archive
  have haccepts' : ∃ parents, (s.propose h).Accepts cfg h parents :=
    ⟨parents, haccepts.found, haccepts.rounds, haccepts.quorum, haccepts.payload⟩
  rw [Core.processOwnHeader, Core.processHeader, processHeaderWithin]
  -- Only the case that votes is left: nothing is voted for yet, and the header is accepted.
  rcases examineHeader_cases cfg (s.propose h) h with ⟨-, ⟨hvoted, -⟩ | ⟨-, heq⟩⟩ | ⟨hnot, -⟩
  · exact absurd hvoted hnew
  · have hvalid : ValidVote cfg Signed h (cfg.newVote h (s.propose h).name) :=
      ⟨hstake, cfg.crypto.verify_sign _ _, hvote⟩
    obtain ⟨hturn, hdone, hcounted⟩ := (hs.voteForOwn hfree ho habove hfresh).processVoteWith
      (processHeaderWithin cfg 1) hvalid (Or.inl
        ⟨List.mem_append_right _ (List.mem_singleton_self h), hheader, List.mem_cons_self ..⟩)
    have horigin : (cfg.newVote h (s.propose h).name).origin =
        ((((s.propose h).mark h).keep h).castVote cfg h).name := ho.author
    rw [heq]
    simp only [handleVote]
    rw [if_pos horigin, expect_eq_self (hdone List.not_mem_nil)]
    exact ⟨hturn, hcounted⟩
  · exact absurd haccepts' hnot

end Core.Inv

end StablecoinSystem.Primary
