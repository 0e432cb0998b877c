import StablecoinSystem.Primary.Core

/-!
What holds of the core of a primary between two turns.

Signatures are idealised: `Signed key digest` says that the owner of a key may have
signed a digest. It is a parameter, since the other primaries decide what they sign,
and what is shown here of one primary is used for all of them together. So is the
`pool` of the headers that occur, among which there are no collisions.

Nothing here depends on what a quorum is. Where sums of stakes overflow, a few votes may
be one, and a core that has proposed nothing may assemble a certificate of the header
that it starts with.

Each part of the invariant is stated for the fields it is about.

* `Archive`: what the store has under a digest;
* `Feed`: certificates go to the consensus after their parents, and are valid;
* `Ballots`: there is at most one vote for an author and a round, for a header whose
  parents are a quorum of the round before;
* `Proposals`: the headers of the primary itself have rising rounds, and it has voted
  for each of them;
* `Poll`: the votes counted for the current header verify;
* `Parents`: what is handed to the proposer is a quorum of a round;
* `Waiters`: what waits was checked.
-/

namespace StablecoinSystem.Primary

variable (cfg : PrimaryConfig) (pool : Set Header) (Signed : ℕ → ℕ → Prop)

/-! ### The parts -/

/-- A header that passes the check, whose author may have signed it. -/
structure ValidHeader (h : Header) : Prop where
  mem : h ∈ pool
  verify : cfg.verifyHeader h = .ok ()
  signed : Signed h.author h.id

/-- A certificate that passes the check, above the genesis, whose author and voters may
have signed it. -/
structure ValidCertificate (c : CertifiedHeader) : Prop where
  round : 1 ≤ c.round
  header : ValidHeader cfg pool Signed c.header
  quorum : PrimaryConfig.Endorsed cfg c
  signed : ∀ vote ∈ c.votes, Signed vote.1 (cfg.certificateDigest c)

/-- A certificate of the header that a core starts with. -/
structure Blank (c : CertifiedHeader) : Prop where
  header : c.header = Header.default
  quorum : PrimaryConfig.Endorsed cfg c
  signed : ∀ vote ∈ c.votes, Signed vote.1 (cfg.certificateDigest c)

/-- What a core may deliver or broadcast. -/
def Certified (c : CertifiedHeader) : Prop :=
  ValidCertificate cfg pool Signed c ∨ Blank cfg Signed c

/-- The digests are those of certificates of a round, of the genesis or delivered, that
have a quorum of the stake. -/
structure Quorate (delivered : List CertifiedHeader) (round : ℕ) (digests : List ℕ)
    (parents : List CertifiedHeader) : Prop where
  nodup : (parents.map cfg.certificateDigest).Nodup
  mem_iff : ∀ digest, digest ∈ digests ↔ digest ∈ parents.map cfg.certificateDigest
  delivered : ∀ x ∈ parents, x ∈ cfg.genesis ∨ x ∈ delivered
  rounds : ∀ x ∈ parents, x.round = round
  quorum : cfg.committee.quorumThreshold ≤
    (parents.map fun x => cfg.committee.stake x.origin).sum % 2 ^ 32

/-- A header that the primary itself may propose. -/
structure OwnHeader (name : ℕ) (delivered : List CertifiedHeader) (h : Header) : Prop where
  mem : h ∈ pool
  author : h.author = name
  verify : cfg.verifyHeader h = .ok ()
  round : 1 ≤ h.round
  quorate : ∃ parents, Quorate cfg delivered (h.round - 1) h.parents parents

/-- The store has certificates and headers under their own digests, and all
certificates that were delivered. -/
structure Archive (store : List (ℕ × Stored)) (consensus : List CertifiedHeader) : Prop where
  certificate : ∀ digest c, store.lookup digest = some (.certificate c) →
    cfg.certificateDigest c = digest ∧ c ∈ consensus
  header : ∀ digest h, store.lookup digest = some (.header h) →
    h ∈ pool ∧ cfg.headerDigest h = digest
  delivered : ∀ c ∈ consensus, ∃ c', store.lookup (cfg.certificateDigest c) =
    some (.certificate c')

/-- A digest that `deliver_certificate` lets pass: of the genesis, of a certificate that
was delivered, or, by mistake, the id of a header. -/
def Passes (delivered : List CertifiedHeader) (digest : ℕ) : Prop :=
  digest ∈ cfg.genesis.map cfg.certificateDigest ∨
    digest ∈ delivered.map cfg.certificateDigest ∨ ∃ h ∈ pool, cfg.headerDigest h = digest

/-- What was sent to the consensus, and what was broadcast. -/
structure Feed (consensus certificates : List CertifiedHeader) : Prop where
  certified : ∀ c ∈ consensus, Certified cfg pool Signed c
  after : ForallSplit (fun pre c => ∀ digest ∈ c.header.parents, Passes cfg pool pre digest)
    consensus
  broadcast : ∀ c ∈ certificates, Certified cfg pool Signed c

/-- The votes of a primary. -/
structure Ballots (name gcRound : ℕ) (lastVoted : List (ℕ × ℕ)) (votes : List Vote)
    (headers : List Header) (consensus : List CertifiedHeader) : Prop where
  remembered : ∀ v ∈ votes, gcRound ≤ v.round → (v.round, v.origin) ∈ lastVoted
  voted : ∀ entry ∈ lastVoted, ∃ v ∈ votes, (v.round, v.origin) = entry
  unique : (votes.map fun v => (v.round, v.origin)).Nodup
  justified : ∀ v ∈ votes, ∃ h ∈ pool, v = cfg.newVote h name ∧ cfg.headerDigest h = h.id ∧
    1 ≤ h.round ∧ ∃ parents, Quorate cfg consensus (h.round - 1) h.parents parents
  own : ∀ v ∈ votes, v.origin = name → ∃ h ∈ headers, h.round = v.round

/-- The headers of the primary itself. -/
structure Proposals (name gcRound : ℕ) (processing : List (ℕ × ℕ)) (currentHeader : Header)
    (votes : List Vote) (headers : List Header) (consensus : List CertifiedHeader) : Prop where
  valid : ∀ h ∈ headers, OwnHeader cfg pool name consensus h
  increasing : headers.Pairwise fun h h' => h.round < h'.round
  processed : ∀ h ∈ headers, gcRound ≤ h.round → (h.round, h.id) ∈ processing
  voted : ∀ h ∈ headers, ∃ v ∈ votes, v.round = h.round ∧ v.origin = name
  current : currentHeader ∈ headers ∨ headers = [] ∧ currentHeader = Header.default

/-- The votes counted for a header. -/
structure Poll (header : Header) (agg : VotesAggregator) : Prop where
  used : agg.used = agg.votes.map Prod.fst
  nodup : agg.used.Nodup
  weight : agg.weight ≤ (agg.votes.map fun vote => cfg.committee.stake vote.1).sum
  stake : ∀ vote ∈ agg.votes, cfg.committee.stake vote.1 ≠ 0
  verify : ∀ vote ∈ agg.votes, cfg.crypto.verify vote.2
    (cfg.crypto.voteHash header.id header.round header.author) vote.1 = true
  signed : ∀ vote ∈ agg.votes, Signed vote.1
    (cfg.crypto.voteHash header.id header.round header.author)

/-- The certificates of a round that wait for a quorum. -/
structure Collected (delivered : List CertifiedHeader) (round : ℕ) (agg : CertificatesAggregator)
    (parents : List CertifiedHeader) : Prop where
  digests : agg.certificates = parents.map cfg.certificateDigest
  delivered : ∀ x ∈ parents, x ∈ delivered
  rounds : ∀ x ∈ parents, x.round = round
  used : ∀ x ∈ parents, x.origin ∈ agg.used
  nodup : (parents.map CertifiedHeader.origin).Nodup
  weight : agg.weight = (parents.map fun x => cfg.committee.stake x.origin).sum % 2 ^ 32

/-- What is collected for the proposer, and what was handed to it. -/
structure Parents (aggregators : ℕ → CertificatesAggregator) (proposer : List (List ℕ × ℕ))
    (consensus : List CertifiedHeader) : Prop where
  collected : ∀ round, ∃ parents, Collected cfg consensus round (aggregators round) parents
  handed : ∀ entry ∈ proposer, ∃ parents, Quorate cfg consensus entry.2 entry.1 parents

/-- What waits for its dependencies. -/
structure Waiters (headerWaiter : List Header) (certificateWaiter : List CertifiedHeader) :
    Prop where
  header : ∀ h ∈ headerWaiter, ValidHeader cfg pool Signed h
  certificate : ∀ c ∈ certificateWaiter, ValidCertificate cfg pool Signed c

/-- **The invariant of a core.** -/
structure Core.Inv (s : Core) : Prop where
  archive : Archive cfg pool s.store s.consensus
  feed : Feed cfg pool Signed s.consensus s.certificates
  ballots : Ballots cfg pool s.name s.gcRound s.lastVoted s.votes s.headers s.consensus
  proposals : Proposals cfg pool s.name s.gcRound s.processing s.currentHeader s.votes s.headers
    s.consensus
  poll : Poll cfg Signed s.currentHeader s.votesAggregator
  parents : Parents cfg s.certificatesAggregators s.proposer s.consensus
  waiters : Waiters cfg pool Signed s.headerWaiter s.certificateWaiter

variable {cfg pool Signed} {Signed' : ℕ → ℕ → Prop} {s : Core}

/-! ### More signatures and more certificates -/

lemma ValidHeader.mono {h : Header} (hv : ValidHeader cfg pool Signed h)
    (hle : ∀ key digest, Signed key digest → Signed' key digest) : ValidHeader cfg pool Signed' h :=
  ⟨hv.mem, hv.verify, hle _ _ hv.signed⟩

lemma ValidCertificate.mono {c : CertifiedHeader} (hv : ValidCertificate cfg pool Signed c)
    (hle : ∀ key digest, Signed key digest → Signed' key digest) :
    ValidCertificate cfg pool Signed' c :=
  ⟨hv.round, hv.header.mono hle, hv.quorum, fun vote hvote => hle _ _ (hv.signed vote hvote)⟩

lemma Certified.mono {c : CertifiedHeader} (hc : Certified cfg pool Signed c)
    (hle : ∀ key digest, Signed key digest → Signed' key digest) : Certified cfg pool Signed' c :=
  hc.imp (fun hv => hv.mono hle) fun hb =>
    { hb with signed := fun vote hvote => hle _ _ (hb.signed vote hvote) }

/-- More may be signed. -/
lemma Core.Inv.mono (hs : s.Inv cfg pool Signed)
    (hle : ∀ key digest, Signed key digest → Signed' key digest) : s.Inv cfg pool Signed' where
  archive := hs.archive
  feed := ⟨fun c hc => (hs.feed.certified c hc).mono hle, hs.feed.after,
    fun c hc => (hs.feed.broadcast c hc).mono hle⟩
  ballots := hs.ballots
  proposals := hs.proposals
  poll := { hs.poll with signed := fun vote hvote => hle _ _ (hs.poll.signed vote hvote) }
  parents := hs.parents
  waiters := ⟨fun h hh => (hs.waiters.header h hh).mono hle,
    fun c hc => (hs.waiters.certificate c hc).mono hle⟩

section Delivered

variable {delivered delivered' : List CertifiedHeader} (hsub : ∀ x ∈ delivered, x ∈ delivered')
include hsub

lemma Quorate.mono {round : ℕ} {digests : List ℕ} {parents : List CertifiedHeader}
    (hq : Quorate cfg delivered round digests parents) :
    Quorate cfg delivered' round digests parents :=
  { hq with delivered := fun x hx => (hq.delivered x hx).imp_right (hsub x) }

lemma OwnHeader.mono {name : ℕ} {h : Header} (ho : OwnHeader cfg pool name delivered h) :
    OwnHeader cfg pool name delivered' h :=
  { ho with quorate := ho.quorate.imp fun _ hq => hq.mono hsub }

lemma Ballots.mono {name gcRound : ℕ} {lastVoted : List (ℕ × ℕ)} {votes : List Vote}
    {headers : List Header} (hb : Ballots cfg pool name gcRound lastVoted votes headers delivered) :
    Ballots cfg pool name gcRound lastVoted votes headers delivered' where
  remembered := hb.remembered
  voted := hb.voted
  unique := hb.unique
  justified v hv := by
    obtain ⟨h, hmem, rfl, hdigest, hround, parents, hq⟩ := hb.justified v hv
    exact ⟨h, hmem, rfl, hdigest, hround, parents, hq.mono hsub⟩
  own := hb.own

lemma Proposals.mono {name gcRound : ℕ} {processing : List (ℕ × ℕ)} {currentHeader : Header}
    {votes : List Vote} {headers : List Header}
    (hp : Proposals cfg pool name gcRound processing currentHeader votes headers delivered) :
    Proposals cfg pool name gcRound processing currentHeader votes headers delivered' :=
  { hp with valid := fun h hh => (hp.valid h hh).mono hsub }

lemma Collected.mono {round : ℕ} {agg : CertificatesAggregator} {parents : List CertifiedHeader}
    (hc : Collected cfg delivered round agg parents) :
    Collected cfg delivered' round agg parents :=
  { hc with delivered := fun x hx => hsub x (hc.delivered x hx) }

lemma Parents.mono {aggregators : ℕ → CertificatesAggregator} {proposer : List (List ℕ × ℕ)}
    (hp : Parents cfg aggregators proposer delivered) :
    Parents cfg aggregators proposer delivered' where
  collected round := (hp.collected round).imp fun _ hc => hc.mono hsub
  handed entry hentry := (hp.handed entry hentry).imp fun _ hq => hq.mono hsub

end Delivered

/-! ### Parents in the store -/

/-- No certificate that is delivered has the digest of a header. -/
lemma Certified.digest_ne {c : CertifiedHeader} {h : Header} (hc : Certified cfg pool Signed c)
    (hfree : cfg.CollisionFree pool) (hh : h ∈ pool) :
    cfg.certificateDigest c ≠ cfg.headerDigest h := by
  intro heq
  refine hfree.vote h hh c.header ?_ heq.symm
  exact hc.imp (fun hv => hv.header.mem) fun hb => Or.inr hb.header

lemma parentOf_spec (ha : Archive cfg pool s.store s.consensus) {digest : ℕ} {x : CertifiedHeader}
    (h : s.parentOf cfg digest = .ok (some x)) :
    cfg.certificateDigest x = digest ∧ (x ∈ cfg.genesis ∨ x ∈ s.consensus) := by
  rw [Core.parentOf] at h
  split at h
  · rename_i g hg
    cases h
    have hdigest := List.find?_some hg
    exact ⟨of_decide_eq_true hdigest, Or.inl (List.mem_of_find?_eq_some hg)⟩
  · split at h
    · cases h
    · rename_i c hc
      cases h
      exact (ha.certificate _ _ hc).imp_right Or.inr
    · cases h

lemma exists_parentOf (ha : Archive cfg pool s.store s.consensus) {x : CertifiedHeader}
    (hx : x ∈ cfg.genesis ∨ x ∈ s.consensus) :
    ∃ y, s.parentOf cfg (cfg.certificateDigest x) = .ok (some y) := by
  rw [Core.parentOf]
  split
  · exact ⟨_, rfl⟩
  · rename_i hnone
    rcases hx with hx | hx
    · exact absurd (decide_eq_true rfl) (List.find?_eq_none.mp hnone x hx)
    · obtain ⟨c, hc⟩ := ha.delivered x hx
      rw [hc]
      exact ⟨c, rfl⟩

/-- What was found for a list of digests. -/
lemma found_eq_map (ha : Archive cfg pool s.store s.consensus) {digests : List ℕ}
    {parents : List CertifiedHeader}
    (hfound : List.Forall₂ (fun digest c => s.parentOf cfg digest = .ok (some c)) digests parents) :
    parents.map cfg.certificateDigest = digests ∧
      ∀ x ∈ parents, x ∈ cfg.genesis ∨ x ∈ s.consensus := by
  induction hfound with
  | nil => exact ⟨rfl, fun x hx => absurd hx List.not_mem_nil⟩
  | cons hparent _ ih =>
      obtain ⟨hdigest, hmem⟩ := parentOf_spec ha hparent
      exact ⟨by rw [List.map_cons, hdigest, ih.1], List.forall_mem_cons.mpr ⟨hmem, ih.2⟩⟩

lemma exists_found {digests : List ℕ}
    (h : ∀ digest ∈ digests, ∃ y, s.parentOf cfg digest = .ok (some y)) :
    ∃ parents, List.Forall₂ (fun digest c => s.parentOf cfg digest = .ok (some c)) digests
      parents := by
  induction digests with
  | nil => exact ⟨[], .nil⟩
  | cons digest digests ih =>
      obtain ⟨y, hy⟩ := h digest (List.mem_cons_self ..)
      obtain ⟨parents, hparents⟩ := ih fun d hd => h d (List.mem_cons_of_mem _ hd)
      exact ⟨y :: parents, .cons hy hparents⟩

/-- The parents of a header that is accepted are a quorum. -/
lemma Core.Accepts.quorate {h : Header} {parents : List CertifiedHeader}
    (ha : Archive cfg pool s.store s.consensus) (haccepts : s.Accepts cfg h parents) :
    1 ≤ h.round ∧ Quorate cfg s.consensus (h.round - 1) h.parents parents := by
  obtain ⟨hmap, hdelivered⟩ := found_eq_map ha haccepts.found
  have hround : ∀ x ∈ parents, x.round = h.round - 1 := by
    intro x hx
    have := haccepts.rounds x hx
    omega
  obtain ⟨x, hx⟩ := List.exists_mem_of_ne_nil _ haccepts.ne_nil
  have hpos := haccepts.rounds x hx
  exact ⟨by omega, hmap ▸ h.parentsSorted.imp Nat.ne_of_lt, fun digest => by rw [hmap],
    hdelivered, hround, haccepts.quorum⟩

/-- Certificates with the same digests have the same stake. -/
lemma sum_stake_eq {parents parents' : List CertifiedHeader}
    (hnodup : (parents.map cfg.certificateDigest).Nodup)
    (hnodup' : (parents'.map cfg.certificateDigest).Nodup)
    (hmem : ∀ digest, digest ∈ parents.map cfg.certificateDigest ↔
      digest ∈ parents'.map cfg.certificateDigest) :
    (parents.map fun x => cfg.committee.stake x.origin).sum =
      (parents'.map fun x => cfg.committee.stake x.origin).sum := by
  let f : CertifiedHeader → ℕ × ℕ := fun x => (cfg.certificateDigest x, x.origin)
  have hfst : ∀ l : List CertifiedHeader, l.map cfg.certificateDigest = (l.map f).map Prod.fst :=
    fun l => by rw [List.map_map]; rfl
  have hsub : ∀ l l' : List CertifiedHeader, (∀ digest, digest ∈ l.map cfg.certificateDigest →
      digest ∈ l'.map cfg.certificateDigest) → ∀ entry ∈ l.map f, entry ∈ l'.map f := by
    intro l l' hll' entry hentry
    obtain ⟨x, hx, rfl⟩ := List.mem_map.mp hentry
    obtain ⟨y, hy, hdigest⟩ := List.mem_map.mp (hll' _ (List.mem_map_of_mem hx))
    refine List.mem_map.mpr ⟨y, hy, ?_⟩
    rw [Prod.mk.injEq]
    exact ⟨hdigest, (PrimaryConfig.certificateDigest_inj hdigest).2.2⟩
  rw [hfst] at hnodup hnodup'
  have hperm : (parents.map f).Perm (parents'.map f) :=
    (List.perm_ext_iff_of_nodup hnodup.of_map hnodup'.of_map).mpr fun entry =>
      ⟨hsub _ _ (fun d => (hmem d).mp) entry, hsub _ _ (fun d => (hmem d).mpr) entry⟩
  have hsum := (hperm.map fun entry => cfg.committee.stake entry.2).sum_nat
  rwa [List.map_map, List.map_map] at hsum

/-- A header whose parents are a quorum is accepted from the primary itself. -/
lemma OwnHeader.accepts {h : Header} (ha : Archive cfg pool s.store s.consensus)
    (ho : OwnHeader cfg pool s.name s.consensus h) : ∃ parents, s.Accepts cfg h parents := by
  obtain ⟨parents, hq⟩ := ho.quorate
  obtain ⟨found, hfound⟩ : ∃ found, List.Forall₂
      (fun digest c => s.parentOf cfg digest = .ok (some c)) h.parents found := by
    refine exists_found fun digest hdigest => ?_
    obtain ⟨x, hx, rfl⟩ := List.mem_map.mp ((hq.mem_iff digest).mp hdigest)
    exact exists_parentOf ha (hq.delivered x hx)
  obtain ⟨hmap, -⟩ := found_eq_map ha hfound
  refine ⟨found, hfound, fun x hx => ?_, ?_, Or.inl ho.author⟩
  · have hmem : cfg.certificateDigest x ∈ h.parents := hmap ▸ List.mem_map_of_mem hx
    obtain ⟨y, hy, hdigest⟩ := List.mem_map.mp ((hq.mem_iff _).mp hmem)
    rw [← (PrimaryConfig.certificateDigest_inj hdigest).2.1, hq.rounds y hy]
    exact Nat.sub_add_cancel ho.round
  · rw [sum_stake_eq (hmap ▸ h.parentsSorted.imp Nat.ne_of_lt) hq.nodup fun digest => by
      rw [hmap, hq.mem_iff]]
    exact hq.quorum

/-! ### The steps of the handlers -/

/-- A vote for an author and a round that have none. -/
lemma Ballots.cast {name gcRound : ℕ} {lastVoted : List (ℕ × ℕ)} {votes : List Vote}
    {headers headers' : List Header} {consensus : List CertifiedHeader} {h : Header}
    (hb : Ballots cfg pool name gcRound lastVoted votes headers consensus)
    (hsub : ∀ o ∈ headers, o ∈ headers')
    (hfresh : ∀ v ∈ votes, (v.round, v.origin) ≠ (h.round, h.author)) (hmem : h ∈ pool)
    (hdigest : cfg.headerDigest h = h.id) (hround : 1 ≤ h.round)
    (hq : ∃ parents, Quorate cfg consensus (h.round - 1) h.parents parents)
    (hown : h.author = name → ∃ o ∈ headers', o.round = h.round) :
    Ballots cfg pool name gcRound ((h.round, h.author) :: lastVoted) (votes ++ [cfg.newVote h name])
      headers' consensus where
  remembered v hv hle := by
    rcases List.mem_append.mp hv with hv | hv
    · exact List.mem_cons_of_mem _ (hb.remembered v hv hle)
    · rw [List.mem_singleton.mp hv]
      exact List.mem_cons_self ..
  voted entry hentry := by
    rcases List.mem_cons.mp hentry with rfl | hentry
    · exact ⟨_, List.mem_append_right _ (List.mem_singleton_self _), rfl⟩
    · obtain ⟨v, hv, heq⟩ := hb.voted entry hentry
      exact ⟨v, List.mem_append_left _ hv, heq⟩
  unique := by
    rw [List.map_append, List.map_singleton]
    -- The new ballot differs from the old ones in its round or its origin.
    refine hb.unique.append (List.nodup_singleton _) (List.disjoint_singleton.mpr fun hentry => ?_)
    obtain ⟨v, hv, heq⟩ := List.mem_map.mp hentry
    exact hfresh v hv heq
  justified v hv := by
    rcases List.mem_append.mp hv with hv | hv
    · exact hb.justified v hv
    · exact ⟨h, hmem, List.mem_singleton.mp hv, hdigest, hround, hq⟩
  own v hv horigin := by
    rcases List.mem_append.mp hv with hv | hv
    · obtain ⟨o, ho, heq⟩ := hb.own v hv horigin
      exact ⟨o, hsub o ho, heq⟩
    · rw [List.mem_singleton.mp hv] at horigin ⊢
      exact hown horigin

lemma poll_new (header : Header) : Poll cfg Signed header VotesAggregator.new where
  used := rfl
  nodup := List.nodup_nil
  weight := le_rfl
  stake := by simp [VotesAggregator.new]
  verify := by simp [VotesAggregator.new]
  signed := by simp [VotesAggregator.new]

/-- One more vote for the header. -/
lemma Poll.append {header : Header} {agg : VotesAggregator} {vote : Vote} {weight : ℕ}
    (hp : Poll cfg Signed header agg) (hnew : vote.author ∉ agg.used)
    (hstake : cfg.committee.stake vote.author ≠ 0)
    (hverify : cfg.crypto.verify vote.signature
      (cfg.crypto.voteHash header.id header.round header.author) vote.author = true)
    (hsigned : Signed vote.author (cfg.crypto.voteHash header.id header.round header.author))
    (hweight : weight ≤ agg.weight + cfg.committee.stake vote.author) :
    Poll cfg Signed header ⟨weight, agg.votes ++ [(vote.author, vote.signature)],
      agg.used ++ [vote.author]⟩ where
  used := by
    rw [List.map_append, List.map_singleton, hp.used]
  nodup := hp.nodup.append (List.nodup_singleton _) (List.disjoint_singleton.mpr hnew)
  weight := by
    have := hp.weight
    rw [List.map_append, List.sum_append, List.map_singleton, List.sum_singleton]
    simp only
    omega
  stake := List.forall_mem_append.mpr ⟨hp.stake, List.forall_mem_singleton.mpr hstake⟩
  verify := List.forall_mem_append.mpr ⟨hp.verify, List.forall_mem_singleton.mpr hverify⟩
  signed := List.forall_mem_append.mpr ⟨hp.signed, List.forall_mem_singleton.mpr hsigned⟩

section

variable {header : Header} {agg : VotesAggregator} (hp : Poll cfg Signed header agg)
  (hquorum : cfg.committee.quorumThreshold ≤
    (agg.votes.map fun vote => cfg.committee.stake vote.1).sum)
include hp hquorum

lemma Poll.endorsed : PrimaryConfig.Endorsed cfg ⟨header, agg.votes⟩ :=
  ⟨hp.used ▸ hp.nodup, hp.stake, hquorum, hp.verify⟩

/-- A quorum of votes for a header of the primary makes a valid certificate. -/
lemma Poll.validCertificate {name : ℕ} {delivered : List CertifiedHeader}
    (ho : OwnHeader cfg pool name delivered header) (hsigned : Signed name header.id) :
    ValidCertificate cfg pool Signed ⟨header, agg.votes⟩ where
  round := ho.round
  header := ⟨ho.mem, ho.verify, ho.author ▸ hsigned⟩
  quorum := hp.endorsed hquorum
  signed := hp.signed

end

lemma collected_nil (delivered : List CertifiedHeader) (round : ℕ) (used : List ℕ) :
    Collected cfg delivered round ⟨0, [], used⟩ [] where
  digests := rfl
  delivered := by simp
  rounds := by simp
  used := by simp
  nodup := List.nodup_nil
  weight := rfl

/-- One more certificate of the round. -/
lemma Collected.append {delivered : List CertifiedHeader} {agg : CertificatesAggregator}
    {parents : List CertifiedHeader} {c : CertifiedHeader}
    (hc : Collected cfg delivered c.round agg parents) (hmem : c ∈ delivered)
    (hnew : c.origin ∉ agg.used) :
    Collected cfg delivered c.round ⟨(agg.weight + cfg.committee.stake c.origin) % 2 ^ 32,
      agg.certificates ++ [cfg.certificateDigest c], agg.used ++ [c.origin]⟩ (parents ++ [c]) where
  digests := by rw [List.map_append, List.map_singleton, hc.digests]
  delivered := List.forall_mem_append.mpr ⟨hc.delivered, List.forall_mem_singleton.mpr hmem⟩
  rounds := List.forall_mem_append.mpr ⟨hc.rounds, List.forall_mem_singleton.mpr rfl⟩
  used := List.forall_mem_append.mpr ⟨fun x hx => List.mem_append_left _ (hc.used x hx),
    List.forall_mem_singleton.mpr (List.mem_append_right _ (List.mem_singleton_self _))⟩
  nodup := by
    rw [List.map_append, List.map_singleton]
    refine hc.nodup.append (List.nodup_singleton _) (List.disjoint_singleton.mpr fun horigin => ?_)
    obtain ⟨x, hx, heq⟩ := List.mem_map.mp horigin
    exact hnew (heq ▸ hc.used x hx)
  weight := by
    rw [List.map_append, List.sum_append, List.map_singleton, List.sum_singleton, hc.weight,
      Nat.mod_add_mod]

/-- A quorum of certificates of distinct origins. -/
lemma Collected.quorate {delivered : List CertifiedHeader} {round : ℕ}
    {agg : CertificatesAggregator} {parents : List CertifiedHeader}
    (hc : Collected cfg delivered round agg parents)
    (hquorum : cfg.committee.quorumThreshold ≤ agg.weight) :
    Quorate cfg delivered round agg.certificates parents where
  nodup := by
    have hnodup := hc.nodup
    rw [List.Nodup, List.pairwise_map] at hnodup ⊢
    exact hnodup.imp fun hne heq => hne (PrimaryConfig.certificateDigest_inj heq).2.2
  mem_iff digest := by rw [hc.digests]
  delivered x hx := Or.inr (hc.delivered x hx)
  rounds := hc.rounds
  quorum := hc.weight ▸ hquorum

/-- The aggregator of a round after a certificate of it was delivered. -/
lemma Parents.deliver {aggregators : ℕ → CertificatesAggregator} {proposer : List (List ℕ × ℕ)}
    {consensus : List CertifiedHeader} (hp : Parents cfg aggregators proposer consensus)
    (c : CertifiedHeader) :
    let appended := (aggregators c.round).append c.origin (cfg.certificateDigest c) cfg.committee
    Parents cfg (Function.update aggregators c.round appended.1)
      (proposer ++ (appended.2.map fun parents => (parents, c.round)).toList)
      (consensus ++ [c]) := by
  intro appended
  have hp' := hp.mono fun x hx => List.mem_append_left [c] hx
  have hcmem : c ∈ consensus ++ [c] := List.mem_append_right _ (List.mem_singleton_self c)
  obtain ⟨parents, hparents⟩ := hp'.collected c.round
  -- It is enough to look at the round of the certificate.
  have hround : ∀ agg, (∃ parents, Collected cfg (consensus ++ [c]) c.round agg parents) →
      ∀ round, ∃ parents, Collected cfg (consensus ++ [c]) round
        (Function.update aggregators c.round agg round) parents := by
    intro agg hagg round
    by_cases heq : round = c.round
    · rw [heq, Function.update_self]
      exact hagg
    · rw [Function.update_of_ne heq]
      exact hp'.collected round
  rcases (aggregators c.round).append_cases c.origin (cfg.certificateDigest c) cfg.committee with
    ⟨-, happend⟩ | ⟨hnew, -, happend⟩ | ⟨hnew, hquorum, happend⟩
  · rw [show appended = _ from happend]
    refine ⟨hround _ ⟨parents, hparents⟩, ?_⟩
    simpa using hp'.handed
  · rw [show appended = _ from happend]
    refine ⟨hround _ ⟨parents ++ [c], hparents.append hcmem hnew⟩, ?_⟩
    simpa using hp'.handed
  · rw [show appended = _ from happend]
    refine ⟨hround _ ⟨[], collected_nil _ _ _⟩, List.forall_mem_append.mpr ⟨hp'.handed, ?_⟩⟩
    rw [Option.map_some, Option.toList_some, List.forall_mem_singleton]
    exact ⟨parents ++ [c], (hparents.append hcmem hnew).quorate hquorum⟩

namespace Core.Inv

variable {h : Header} {c : CertifiedHeader} (hs : s.Inv cfg pool Signed)
include hs

lemma mark (h : Header) : (s.mark h).Inv cfg pool Signed :=
  { hs with proposals := { hs.proposals with
      processed := fun o ho hle => List.mem_cons_of_mem _ (hs.proposals.processed o ho hle) } }

lemma suspend (hv : ValidHeader cfg pool Signed h) : (s.suspend h).Inv cfg pool Signed :=
  { hs with waiters := { hs.waiters with
      header := List.forall_mem_append.mpr
        ⟨hs.waiters.header, List.forall_mem_singleton.mpr hv⟩ } }

lemma suspendCertificate (hv : ValidCertificate cfg pool Signed c) :
    { s with certificateWaiter := s.certificateWaiter ++ [c] }.Inv cfg pool Signed :=
  { hs with waiters := { hs.waiters with
      certificate := List.forall_mem_append.mpr
        ⟨hs.waiters.certificate, List.forall_mem_singleton.mpr hv⟩ } }

/-- No certificate is stored under the id of a header. -/
lemma keep (hfree : cfg.CollisionFree pool) (hmem : h ∈ pool)
    (hdigest : cfg.headerDigest h = h.id) : (s.keep h).Inv cfg pool Signed := by
  have hother : ∀ c ∈ s.consensus, cfg.certificateDigest c ≠ h.id := fun c hc =>
    hdigest ▸ (hs.feed.certified c hc).digest_ne hfree hmem
  refine { hs with archive := ⟨fun digest c hc => ?_, fun digest h' hh' => ?_, fun c hc => ?_⟩ }
  · rw [Core.keep, List.lookup_cons] at hc
    split at hc
    · cases hc
    · exact hs.archive.certificate digest c hc
  · rw [Core.keep, List.lookup_cons] at hh'
    split at hh'
    · rename_i heq
      cases hh'
      exact ⟨hmem, hdigest.trans (beq_iff_eq.mp heq).symm⟩
    · exact hs.archive.header digest h' hh'
  · obtain ⟨c', hc'⟩ := hs.archive.delivered c hc
    refine ⟨c', ?_⟩
    rw [Core.keep, List.lookup_cons, beq_false_of_ne (hother c hc)]
    exact hc'

/-- A vote for the header of another primary. -/
lemma castVote (hnew : (h.round, h.author) ∉ s.lastVoted) (hle : s.gcRound ≤ h.round)
    (hother : h.author ≠ s.name) (hmem : h ∈ pool) (hdigest : cfg.headerDigest h = h.id)
    (hround : 1 ≤ h.round)
    (hq : ∃ parents, Quorate cfg s.consensus (h.round - 1) h.parents parents) :
    (s.castVote cfg h).Inv cfg pool Signed := by
  have hfresh : ∀ v ∈ s.votes, (v.round, v.origin) ≠ (h.round, h.author) := by
    intro v hv heq
    have hvround : v.round = h.round := congrArg Prod.fst heq
    exact hnew (heq ▸ hs.ballots.remembered v hv (hvround ▸ hle))
  refine { hs with
    ballots := hs.ballots.cast (fun _ ho => ho) hfresh hmem hdigest hround hq
      fun heq => absurd heq hother
    proposals := { hs.proposals with voted := fun o ho => ?_ } }
  obtain ⟨v, hv, hvo⟩ := hs.proposals.voted o ho
  exact ⟨v, List.mem_append_left _ hv, hvo⟩

/-- What `deliver_certificate` finds. -/
lemma passes_of_known {digest : ℕ} (hknown : s.known cfg digest = true) :
    Passes cfg pool s.consensus digest := by
  rw [known, Bool.or_eq_true, List.any_eq_true, Option.isSome_iff_exists] at hknown
  rcases hknown with ⟨g, hg, hdigest⟩ | ⟨stored, hstored⟩
  · exact Or.inl (List.mem_map.mpr ⟨g, hg, of_decide_eq_true hdigest⟩)
  · cases stored with
    | header h => exact Or.inr (Or.inr ⟨h, hs.archive.header digest h hstored⟩)
    | certificate c =>
        obtain ⟨hdigest, hmem⟩ := hs.archive.certificate digest c hstored
        exact Or.inr (Or.inl (List.mem_map.mpr ⟨c, hmem, hdigest⟩))

/-- A certificate all of whose parents are known. -/
lemma deliver (hcert : Certified cfg pool Signed c)
    (hknown : ∀ digest ∈ c.header.parents, s.known cfg digest = true) :
    (s.deliver cfg c).Inv cfg pool Signed := by
  have hsub : ∀ x ∈ s.consensus, x ∈ s.consensus ++ [c] := fun x hx => List.mem_append_left _ hx
  refine { hs with
    archive := ⟨fun digest c' hc' => ?_, fun digest h hh => ?_, fun c' hc' => ?_⟩
    feed := ⟨List.forall_mem_append.mpr ⟨hs.feed.certified, List.forall_mem_singleton.mpr hcert⟩,
      forallSplit_append_singleton.mpr ⟨hs.feed.after, fun digest hdigest =>
        hs.passes_of_known (hknown digest hdigest)⟩, hs.feed.broadcast⟩
    ballots := hs.ballots.mono hsub
    proposals := hs.proposals.mono hsub
    parents := hs.parents.deliver c }
  · rw [Core.deliver, List.lookup_cons] at hc'
    split at hc'
    · rename_i heq
      cases hc'
      exact ⟨(beq_iff_eq.mp heq).symm, List.mem_append_right _ (List.mem_singleton_self c)⟩
    · exact (hs.archive.certificate digest c' hc').imp_right (hsub c')
  · rw [Core.deliver, List.lookup_cons] at hh
    split at hh
    · cases hh
    · exact hs.archive.header digest h hh
  · rw [Core.deliver, List.lookup_cons]
    split
    · exact ⟨c, rfl⟩
    · rename_i hne
      rcases List.mem_append.mp hc' with hc' | hc'
      · exact hs.archive.delivered c' hc'
      · rw [List.mem_singleton.mp hc', beq_self_eq_true] at hne
        exact absurd hne (by simp)

lemma finishCertificate (hcert : Certified cfg pool Signed c) :
    (s.finishCertificate cfg c).Inv cfg pool Signed := by
  rw [Core.finishCertificate]
  split
  · rename_i hknown
    exact hs.deliver hcert (List.all_eq_true.mp hknown)
  · rename_i hunknown
    rcases hcert with hv | hblank
    · exact hs.suspendCertificate hv
    · -- A certificate without parents does not wait.
      rw [hblank.header] at hunknown
      exact absurd rfl hunknown

/-- The cleanup forgets what is below the new round of the garbage collector. -/
lemma cleanup {round : ℕ} (hle : s.gcRound ≤ round - cfg.gcDepth) :
    (s.cleanup cfg round).Inv cfg pool Signed := by
  rw [Core.cleanup]
  split
  · refine { hs with
      ballots := { hs.ballots with
        remembered := fun v hv hge => ?_
        voted := fun entry hentry => hs.ballots.voted entry (List.mem_of_mem_filter hentry) }
      proposals := { hs.proposals with processed := fun o ho hge => ?_ }
      parents := { hs.parents with collected := fun r => ?_ } }
    · exact List.mem_filter.mpr ⟨hs.ballots.remembered v hv (hle.trans hge), by simpa using hge⟩
    · exact List.mem_filter.mpr ⟨hs.proposals.processed o ho (hle.trans hge), by simpa using hge⟩
    · simp only
      split
      · exact hs.parents.collected r
      · exact ⟨[], collected_nil _ _ _⟩
  · exact hs

end Core.Inv

end StablecoinSystem.Primary
