import StablecoinSystem.Primary.Handlers

/-!
The turns of the tasks of a primary keep its invariant.

* `Proposing`: the proposer makes headers of rising rounds, whose parents are a
  quorum of the round before;
* `Authentic`, `Timely`, `WellFormed`, `Pooled`: what is assumed of the events.
  Signatures that verify were made by the owners of the keys; what the waiters give back
  and votes for the current header are not below the round of the garbage collector;
  certificates are above the genesis, and workers send their own ids; the headers that
  occur are in the pool, among which there are no collisions;
* `Node.Inv.step`: a turn does not panic and keeps the invariant.
-/

namespace StablecoinSystem.Primary

/-! ### The proposer -/

/-- The proposer of a primary, given the headers that the core has taken and those that
wait for it. -/
structure Proposing (cfg : PrimaryConfig) (pool : Set Header) (name : ℕ) (p : Proposer)
    (taken queue : List Header) (consensus : List CertifiedHeader) : Prop where
  queued : ∀ h ∈ queue, OwnHeader cfg pool name consensus h
  increasing : (taken ++ queue).Pairwise fun h h' => h.round < h'.round
  below : ∀ h ∈ taken ++ queue, h.round ≤ p.round ∧ (p.lastParents ≠ [] → h.round < p.round)
  round : 1 ≤ p.round
  parents : p.lastParents ≠ [] →
    ∃ parents, Quorate cfg consensus (p.round - 1) p.lastParents parents
  workers : ∀ entry ∈ p.digests, entry.2 ∈ cfg.workers name

variable {cfg : PrimaryConfig} {pool : Set Header} {Signed : ℕ → ℕ → Prop} {s s' s'' : Core}

namespace Proposing

variable {name : ℕ} {p : Proposer} {taken queue : List Header} {consensus : List CertifiedHeader}

lemma mono {consensus' : List CertifiedHeader}
    (hp : Proposing cfg pool name p taken queue consensus)
    (hsub : ∀ x ∈ consensus, x ∈ consensus') : Proposing cfg pool name p taken queue consensus' :=
  { hp with
    queued := fun h hh => (hp.queued h hh).mono hsub
    parents := fun hne => (hp.parents hne).imp fun _ hq => hq.mono hsub }

/-- The header that the proposer makes is one that the core accepts. -/
lemma ownHeader (hp : Proposing cfg pool name p taken queue consensus) (hne : p.lastParents ≠ [])
    (hstake : cfg.committee.stake name ≠ 0) (hmem : p.makeHeader cfg name ∈ pool) :
    OwnHeader cfg pool name consensus (p.makeHeader cfg name) where
  mem := hmem
  author := rfl
  verify := by
    refine PrimaryConfig.verifyHeader_eq_ok.mpr ⟨rfl, hstake, fun entry hentry => ?_, ?_⟩
    · exact hp.workers entry (mem_of_mem_collectBy hentry)
    · exact cfg.crypto.verify_sign _ _
  round := hp.round
  quorate := by
    obtain ⟨parents, hq⟩ := hp.parents hne
    refine ⟨parents, { hq with mem_iff := fun digest => ?_ }⟩
    have hmem : digest ∈ (collectBy id p.lastParents).map id ↔ digest ∈ p.lastParents.map id :=
      mem_map_collectBy
    rw [List.map_id, List.map_id] at hmem
    exact hmem.trans (hq.mem_iff digest)

/-- The head of the loop. -/
lemma check (hp : Proposing cfg pool name p taken queue consensus)
    (hstake : cfg.committee.stake name ≠ 0) (expired : Bool)
    (hmade : ∀ h ∈ (p.check cfg name expired).2, h ∈ pool) :
    Proposing cfg pool name (p.check cfg name expired).1 taken
      (queue ++ (p.check cfg name expired).2) consensus := by
  rw [Proposer.check] at hmade ⊢
  split at hmade
  · rename_i hcheck
    rw [if_pos hcheck]
    refine ⟨List.forall_mem_append.mpr ⟨hp.queued, List.forall_mem_singleton.mpr
      (hp.ownHeader hcheck.2 hstake (hmade _ (List.mem_singleton_self _)))⟩, ?_, ?_, hp.round,
      by simp, by simp⟩
    · rw [← List.append_assoc]
      refine List.pairwise_append.mpr ⟨hp.increasing, List.pairwise_singleton _ _, ?_⟩
      intro h hh h' hh'
      rw [List.mem_singleton.mp hh']
      exact (hp.below h hh).2 hcheck.2
    · rw [← List.append_assoc]
      refine List.forall_mem_append.mpr ⟨fun h hh => ⟨(hp.below h hh).1, by simp⟩,
        List.forall_mem_singleton.mpr ⟨le_rfl, by simp⟩⟩
  · rename_i hcheck
    rwa [if_neg hcheck, List.append_nil]

lemma receiveParents (hp : Proposing cfg pool name p taken queue consensus) {digests : List ℕ}
    {round : ℕ} (hq : ∃ parents, Quorate cfg consensus round digests parents) :
    Proposing cfg pool name (p.receiveParents digests round) taken queue consensus := by
  rw [Proposer.receiveParents]
  split
  · exact hp
  · refine { hp with
      below := fun h hh => ?_
      round := Nat.le_add_left 1 round
      parents := fun _ => hq }
    have := (hp.below h hh).1
    simp only
    omega

lemma receiveDigest (hp : Proposing cfg pool name p taken queue consensus) {digest worker : ℕ}
    (hworker : worker ∈ cfg.workers name) :
    Proposing cfg pool name (p.receiveDigest digest worker) taken queue consensus :=
  { hp with
    workers := List.forall_mem_append.mpr ⟨hp.workers, List.forall_mem_singleton.mpr hworker⟩ }

/-- The core takes the next header. -/
lemma take {h : Header} (hp : Proposing cfg pool name p taken (h :: queue) consensus) :
    Proposing cfg pool name p (taken ++ [h]) queue consensus := by
  have hsplit : taken ++ [h] ++ queue = taken ++ h :: queue := List.append_cons .. |>.symm
  exact { hp with
    queued := fun h' hh' => hp.queued h' (List.mem_cons_of_mem _ hh')
    increasing := hsplit ▸ hp.increasing
    below := hsplit ▸ hp.below }

end Proposing

/-! ### Events -/

/-- Signatures that verify were made by the owners of the keys. -/
def Authentic (cfg : PrimaryConfig) (Signed : ℕ → ℕ → Prop) : Event → Prop
  | .header h => cfg.verifyHeader h = .ok () → Signed h.author h.id
  | .vote v => cfg.verifyVote v = .ok () → Signed v.author (cfg.voteDigest v)
  | .certificate c => cfg.verifyCertificate c = .ok () →
      Signed c.header.author c.header.id ∧
        ∀ vote ∈ c.votes, Signed vote.1 (cfg.certificateDigest c)
  | _ => True

/-- What is given back, and votes that are counted, are not below the round of the
garbage collector. -/
def Timely (cfg : PrimaryConfig) (n : Node) : Event → Prop
  | .vote v => n.core.sanitizeVote cfg v = .ok () → n.core.gcRound ≤ n.core.currentHeader.round
  | .headerLoopback i => ∀ h, n.core.headerWaiter[i]? = some h → n.core.gcRound ≤ h.round
  | .certificateLoopback i => ∀ c, n.core.certificateWaiter[i]? = some c → n.core.gcRound ≤ c.round
  | _ => True

/-- Certificates are above the genesis, and workers send their own ids. -/
def WellFormed (cfg : PrimaryConfig) (name : ℕ) : Event → Prop
  | .certificate c => 1 ≤ c.round
  | .ourDigest _ worker _ => worker ∈ cfg.workers name
  | _ => True

/-- Headers that come from elsewhere and pass the check, and headers that the proposer
makes, are in the pool. -/
def Pooled (cfg : PrimaryConfig) (pool : Set Header) (n : Node) : Event → Prop
  | .header h => cfg.verifyHeader h = .ok () → h ∈ pool
  | .certificate c => cfg.verifyHeader c.header = .ok () → c.header ∈ pool
  | e => ∀ h ∈ (n.handle cfg e).headers, h ∈ pool

/-- The core has forgotten what is below the round of the garbage collector. -/
structure Swept (gcRound : ℕ) (lastVoted processing : List (ℕ × ℕ)) : Prop where
  lastVoted : ∀ entry ∈ lastVoted, gcRound ≤ entry.1
  processing : ∀ entry ∈ processing, gcRound ≤ entry.1

/-- **The invariant of a primary.** -/
structure Node.Inv (cfg : PrimaryConfig) (pool : Set Header) (Signed : ℕ → ℕ → Prop) (n : Node) :
    Prop where
  core : n.core.Inv cfg pool Signed
  proposing : Proposing cfg pool n.core.name n.proposer n.core.headers n.headers n.core.consensus
  counted : n.core.headers ≠ [] → n.core.name ∈ n.core.votesAggregator.used
  swept : Swept n.core.gcRound n.core.lastVoted n.core.processing
  gc : n.core.gcRound ≤ n.consensusRound - cfg.gcDepth
  running : n.halted = false

/-- What a core has sent is only added to. -/
structure Core.Grows (s s' : Core) : Prop where
  name : s'.name = s.name
  headers : s.headers <+: s'.headers
  votes : s.votes <+: s'.votes
  consensus : s.consensus <+: s'.consensus

namespace Core.Grows

lemma of_eq (hname : s'.name = s.name) (hheaders : s'.headers = s.headers)
    (hvotes : s'.votes = s.votes) (hconsensus : s'.consensus = s.consensus) : s.Grows s' :=
  ⟨hname, hheaders ▸ List.prefix_refl _, hvotes ▸ List.prefix_refl _,
    hconsensus ▸ List.prefix_refl _⟩

lemma trans (h : s.Grows s') (h' : s'.Grows s'') : s.Grows s'' :=
  ⟨h'.name.trans h.name, h.headers.trans h'.headers, h.votes.trans h'.votes,
    h.consensus.trans h'.consensus⟩

lemma published_subset (h : s.Grows s') {digest : ℕ} (hd : digest ∈ s.published cfg) :
    digest ∈ s'.published cfg := by
  rw [Core.published, List.mem_append] at hd ⊢
  exact hd.imp (fun hd => (h.headers.map _).subset hd) fun hd => (h.votes.map _).subset hd

end Core.Grows

lemma Core.Extends.grows (h : s.Extends s') : s.Grows s' :=
  ⟨h.name, h.headers ▸ List.prefix_refl _, h.votes, h.consensus⟩

/-- The cleanup leaves alone what was sent. -/
lemma Core.cleanup_logs (cfg : PrimaryConfig) (s : Core) (round : ℕ) :
    (s.cleanup cfg round).name = s.name ∧ (s.cleanup cfg round).headers = s.headers ∧
      (s.cleanup cfg round).votes = s.votes ∧ (s.cleanup cfg round).consensus = s.consensus := by
  rw [cleanup]
  split <;> exact ⟨rfl, rfl, rfl, rfl⟩

/-- The cleanup does not count votes. -/
lemma Core.votesAggregator_cleanup (cfg : PrimaryConfig) (s : Core) (round : ℕ) :
    (s.cleanup cfg round).votesAggregator = s.votesAggregator := by
  rw [cleanup]
  split <;> rfl

lemma Core.swept_cleanup {round : ℕ} (h : s.gcRound ≤ round - cfg.gcDepth) :
    Swept (s.cleanup cfg round).gcRound (s.cleanup cfg round).lastVoted
      (s.cleanup cfg round).processing := by
  rw [cleanup]
  split
  · exact ⟨fun entry hentry => of_decide_eq_true (List.mem_filter.mp hentry).2,
      fun entry hentry => of_decide_eq_true (List.mem_filter.mp hentry).2⟩
  · have hzero : s.gcRound = 0 := by omega
    exact ⟨fun _ _ => hzero ▸ Nat.zero_le _, fun _ _ => hzero ▸ Nat.zero_le _⟩

lemma Core.gcRound_cleanup_le {round : ℕ} (h : s.gcRound ≤ round - cfg.gcDepth) :
    (s.cleanup cfg round).gcRound ≤ round - cfg.gcDepth := by
  rw [cleanup]
  split
  · exact le_rfl
  · exact h

namespace Node

variable {n : Node} {e : Event}

/-- The end of a turn of the core. -/
lemma inv_conclude {result : Core × Outcome} (houtcome : result.2 ≠ .panic)
    (hinv : result.1.Inv cfg pool Signed)
    (hproposing : Proposing cfg pool result.1.name n.proposer result.1.headers n.headers
      result.1.consensus)
    (hcounted : result.1.headers ≠ [] → result.1.name ∈ result.1.votesAggregator.used)
    (hgc : result.1.gcRound ≤ n.consensusRound - cfg.gcDepth) (hrunning : n.halted = false) :
    (n.conclude cfg result).Inv cfg pool Signed ∧ result.1.Grows (n.conclude cfg result).core := by
  obtain ⟨hname, hheaders, hvotes, hconsensus⟩ := result.1.cleanup_logs cfg n.consensusRound
  rw [conclude_eq cfg n houtcome]
  refine ⟨⟨hinv.cleanup hgc, ?_, ?_, Core.swept_cleanup hgc, Core.gcRound_cleanup_le hgc,
    hrunning⟩, .of_eq hname hheaders hvotes hconsensus⟩
  · simp only
    rw [hname, hheaders, hconsensus]
    exact hproposing
  · simp only
    rw [hname, hheaders, Core.votesAggregator_cleanup]
    exact hcounted

/-- A turn of the core that proposes nothing. -/
lemma Inv.turn (hn : n.Inv cfg pool Signed) {result : Core × Outcome}
    (hturn : Turn cfg pool Signed s result) (hstart : n.core.Extends s) :
    (n.conclude cfg result).Inv cfg pool Signed ∧ n.core.Grows (n.conclude cfg result).core := by
  have hgrows := hstart.trans hturn.grows
  obtain ⟨hinv, hgrows'⟩ := inv_conclude hturn.outcome hturn.inv
    (by rw [hgrows.name, hgrows.headers]; exact hn.proposing.mono hgrows.consensus.subset)
    (by rw [hgrows.name, hgrows.headers]; exact fun hne => hgrows.used.subset (hn.counted hne))
    (hgrows.gcRound ▸ hn.gc) hn.running
  exact ⟨hinv, hgrows.grows.trans hgrows'⟩

section

variable (hn : n.Inv cfg pool Signed)
include hn

/-- The head of the loop of the proposer, which may have received something. -/
lemma Inv.proposes {p : Proposer} (hstake : cfg.committee.stake n.core.name ≠ 0)
    (hp : Proposing cfg pool n.core.name p n.core.headers n.headers n.core.consensus)
    (expired : Bool) (hmade : ∀ h ∈ (n.proposes cfg p expired).headers, h ∈ pool) :
    (n.proposes cfg p expired).Inv cfg pool Signed ∧
      n.core.Grows (n.proposes cfg p expired).core := by
  have hcheck := hp.check hstake expired fun h hh => hmade h (List.mem_append_right _ hh)
  exact ⟨{ hn with proposing := hcheck }, .of_eq rfl rfl rfl rfl⟩

/-- The waiters have less. -/
lemma Inv.waiters {headers : List Header} {certificates : List CertifiedHeader}
    (hheaders : ∀ h ∈ headers, h ∈ n.core.headerWaiter)
    (hcertificates : ∀ c ∈ certificates, c ∈ n.core.certificateWaiter) :
    { n.core with headerWaiter := headers, certificateWaiter := certificates }.Inv cfg pool Signed :=
  { hn.core with
    waiters := ⟨fun h hh => hn.core.waiters.header h (hheaders h hh),
      fun c hc => hn.core.waiters.certificate c (hcertificates c hc)⟩ }

/-- The proposer takes parents. -/
lemma Inv.takeParents (hstake : cfg.committee.stake n.core.name ≠ 0) (expired : Bool)
    (hmade : ∀ h ∈ (n.takeParents cfg expired).headers, h ∈ pool) :
    (n.takeParents cfg expired).Inv cfg pool Signed ∧
      n.core.Grows (n.takeParents cfg expired).core := by
  cases hqueue : n.core.proposer with
  | nil =>
      rw [Node.takeParents, hqueue]
      exact ⟨hn, .of_eq rfl rfl rfl rfl⟩
  | cons entry rest =>
      obtain ⟨parents, round⟩ := entry
      rw [Node.takeParents, hqueue] at hmade ⊢
      have hhanded := hn.core.parents.handed
      rw [hqueue, List.forall_mem_cons] at hhanded
      have hn' : { n with core := { n.core with proposer := rest } }.Inv cfg pool Signed :=
        { hn with core := { hn.core with parents := ⟨hn.core.parents.collected, hhanded.2⟩ } }
      obtain ⟨hinv, -⟩ :=
        hn'.proposes hstake (hn.proposing.receiveParents hhanded.1) expired hmade
      exact ⟨hinv, .of_eq rfl rfl rfl rfl⟩

section

variable (hfree : cfg.CollisionFree pool)
  (hown : ∀ digest, Signed n.core.name digest → digest ∈ n.core.published cfg)
include hfree hown

/-- The `HeaderWaiter` gives back a header in time. -/
lemma Inv.loopHeader {i : ℕ}
    (htimely : ∀ h, n.core.headerWaiter[i]? = some h → n.core.gcRound ≤ h.round) :
    (n.loopHeader cfg i).Inv cfg pool Signed ∧ n.core.Grows (n.loopHeader cfg i).core := by
  rw [Node.loopHeader]
  split
  · exact ⟨hn, .of_eq rfl rfl rfl rfl⟩
  · rename_i h hget
    have hs : { n.core with headerWaiter := n.core.headerWaiter.eraseIdx i }.Inv cfg pool Signed :=
      hn.waiters (fun h hh => List.mem_of_mem_eraseIdx hh) fun c hc => hc
    have hv := hn.core.waiters.header h (List.mem_of_getElem? hget)
    have hle := htimely h hget
    exact hn.turn (hs.processHeader hfree hv hle (hs.voted_of_own hfree hv hown hle))
      { Core.Extends.refl n.core with }

/-- The `CertificateWaiter` gives back a certificate in time. -/
lemma Inv.loopCertificate {i : ℕ}
    (htimely : ∀ c, n.core.certificateWaiter[i]? = some c → n.core.gcRound ≤ c.round) :
    (n.loopCertificate cfg i).Inv cfg pool Signed ∧ n.core.Grows (n.loopCertificate cfg i).core := by
  rw [Node.loopCertificate]
  split
  · exact ⟨hn, .of_eq rfl rfl rfl rfl⟩
  · rename_i c hget
    have hs : { n.core with
        certificateWaiter := n.core.certificateWaiter.eraseIdx i }.Inv cfg pool Signed :=
      hn.waiters (fun h hh => hh) fun c hc => List.mem_of_mem_eraseIdx hc
    have hv := hn.core.waiters.certificate c (List.mem_of_getElem? hget)
    have hle := htimely c hget
    exact hn.turn
      (hs.processCertificate hfree hv hle (hs.voted_of_own hfree hv.header hown hle))
      { Core.Extends.refl n.core with }

end

/-- The core takes a header of the proposer. What the primary has signed then is among
what it has published. -/
lemma Inv.takeHeader (hfree : cfg.CollisionFree pool)
    (hstake : cfg.committee.stake n.core.name ≠ 0) :
    (n.takeHeader cfg).Inv cfg pool (fun key digest => Signed key digest ∨
        key = n.core.name ∧ digest ∈ (n.takeHeader cfg).core.published cfg) ∧
      n.core.Grows (n.takeHeader cfg).core := by
  rw [Node.takeHeader]
  split
  · exact ⟨{ hn with core := hn.core.mono fun _ _ => Or.inl }, .of_eq rfl rfl rfl rfl⟩
  · rename_i h rest hqueue
    have hproposing := hn.proposing
    rw [hqueue] at hproposing
    have habove : ∀ o ∈ n.core.headers, o.round < h.round := fun o ho =>
      (List.pairwise_append.mp hproposing.increasing).2.2 o ho h (List.mem_cons_self ..)
    -- The core signs its header and its vote for it.
    let Signed' : ℕ → ℕ → Prop := fun key digest => Signed key digest ∨ key = n.core.name ∧
      (digest = h.id ∨ digest = cfg.crypto.voteHash h.id h.round h.author)
    have hs : n.core.Inv cfg pool Signed' := hn.core.mono fun _ _ => Or.inl
    obtain ⟨hturn, hcounted⟩ := hs.processOwnHeader hfree
      (hproposing.queued h (List.mem_cons_self ..)) habove hstake
      (Or.inr ⟨rfl, Or.inl rfl⟩) (Or.inr ⟨rfl, Or.inr rfl⟩)
    have hgrows := hturn.grows
    obtain ⟨hinv, hgrows'⟩ := inv_conclude (n := { n with headers := rest }) hturn.outcome
      hturn.inv (by
        rw [hgrows.name, hgrows.headers]
        exact hproposing.take.mono hgrows.consensus.subset)
      (fun _ => hgrows.name.symm ▸ hcounted) (hgrows.gcRound ▸ hn.gc) hn.running
    have hheaders : n.core.headers ++ [h] <+:
        ({ n with headers := rest }.conclude cfg (n.core.processOwnHeader cfg h)).core.headers := by
      have htaken := hgrows'.headers
      rwa [hgrows.headers] at htaken
    have hvotes : n.core.votes ++ [cfg.newVote h n.core.name] <+:
        ({ n with headers := rest }.conclude cfg (n.core.processOwnHeader cfg h)).core.votes :=
      hgrows.votes.trans hgrows'.votes
    refine ⟨{ hinv with core := hinv.core.mono ?_ }, hgrows'.name.trans hgrows.name,
      (List.prefix_append _ _).trans hheaders, (List.prefix_append _ _).trans hvotes,
      hgrows.consensus.trans hgrows'.consensus⟩
    -- What `Signed'` adds is published: the header is kept and the vote is cast.
    rintro key digest (hsigned | ⟨rfl, rfl | rfl⟩)
    · exact Or.inl hsigned
    · exact Or.inr ⟨rfl, List.mem_append_left _ (List.mem_map_of_mem (hheaders.subset
        (List.mem_append_right _ (List.mem_singleton_self h))))⟩
    · refine Or.inr ⟨rfl, List.mem_append_right _ (List.mem_map.mpr ⟨_, hvotes.subset
        (List.mem_append_right _ (List.mem_singleton_self _)), rfl⟩)⟩

/-- **A turn does not panic and keeps the invariant.** -/
theorem Inv.step (hfree : cfg.CollisionFree pool) (hstake : cfg.committee.stake n.core.name ≠ 0)
    (hown : ∀ digest, Signed n.core.name digest → digest ∈ n.core.published cfg)
    (hpublished : ∀ digest ∈ n.core.published cfg, Signed n.core.name digest)
    (hauthentic : Authentic cfg Signed e) (htimely : Timely cfg n e)
    (hwf : WellFormed cfg n.core.name e) (hpool : Pooled cfg pool n e) :
    (n.step cfg e).Inv cfg pool (fun key digest => Signed key digest ∨
        key = n.core.name ∧ digest ∈ (n.step cfg e).core.published cfg) ∧
      n.core.Grows (n.step cfg e).core := by
  have hmono : ∀ {n' : Node}, n'.Inv cfg pool Signed ∧ n.core.Grows n'.core →
      n'.Inv cfg pool (fun key digest => Signed key digest ∨
        key = n.core.name ∧ digest ∈ n'.core.published cfg) ∧ n.core.Grows n'.core :=
    fun h => ⟨{ h.1 with core := h.1.core.mono fun _ _ => Or.inl }, h.2⟩
  rw [Node.step, if_neg (by simp [hn.running])]
  -- Only an own header needs signatures that were not there before the turn.
  cases e with
  | header h =>
      exact hmono (hn.turn (hn.core.receiveHeader hfree hown hpool hauthentic) (.refl _))
  | vote v =>
      exact hmono (hn.turn (hn.core.receiveVote hpublished hauthentic htimely) (.refl _))
  | certificate c =>
      exact hmono (hn.turn (hn.core.receiveCertificate hfree hown hpool fun hok =>
        ⟨hwf, hauthentic hok⟩) (.refl _))
  | headerLoopback i => exact hmono (hn.loopHeader hfree hown htimely)
  | certificateLoopback i => exact hmono (hn.loopCertificate hfree hown htimely)
  | ownHeader => exact hn.takeHeader hfree hstake
  | parents expired => exact hmono (hn.takeParents hstake expired hpool)
  | ourDigest digest worker expired =>
      exact hmono (hn.proposes hstake (hn.proposing.receiveDigest hwf) expired hpool)
  | timer => exact hmono (hn.proposes hstake hn.proposing true hpool)
  | othersDigest digest worker =>
      refine hmono ⟨{ hn with core := ?_ }, .of_eq rfl rfl rfl rfl⟩
      exact { hn.core with }
  | committed round =>
      refine hmono ⟨{ hn with gc := hn.gc.trans ?_ }, .of_eq rfl rfl rfl rfl⟩
      exact Nat.sub_le_sub_right (le_max_left _ _) _

end

end Node

end StablecoinSystem.Primary
