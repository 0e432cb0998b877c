import StablecoinSystem.Primary.Aggregators

/-!
The core of a primary and its synchronizer (`primary/src/core.rs`,
`primary/src/synchronizer.rs`).

The hash maps from rounds to sets are lists of pairs, the aggregators of certificates
a function of the round that is `new` where the map has no entry. The store is one
space of digests for headers and certificates, as in the source: a certificate that
is looked for under the id of a header does not deserialize. The channels are what
has been sent on them, and `votes` what the signature service has been asked to sign
for votes. The cancel handlers of the network are left out. Sums of stakes wrap as in a
release build.

`process_header`, `process_vote` and `process_certificate` call each other. The
recursion ends because the vote of the primary itself is counted once for a header:
`processHeader` is given the number of calls of itself that it may make, and two are
enough.

* `Accepts`: a header whose parents and payload are at hand and form a quorum;
* `examineHeader_cases`: what happens to a header up to the vote;
* `processHeader_add`: two calls are enough.
-/

namespace StablecoinSystem.Primary

/-- What the store has under a digest. -/
inductive Stored where
  | header (h : Header)
  | certificate (c : CertifiedHeader)

/-- How a handler ends. `panic` is an `expect` that fails. -/
inductive Outcome where
  | done
  | error (e : DagError)
  | panic

/-- `Core`, with the store and what has been sent on its channels. -/
structure Core where
  name : ℕ
  gcRound : ℕ
  lastVoted : List (ℕ × ℕ)
  processing : List (ℕ × ℕ)
  currentHeader : Header
  votesAggregator : VotesAggregator
  certificatesAggregators : ℕ → CertificatesAggregator
  store : List (ℕ × Stored)
  payload : List (ℕ × ℕ)
  headers : List Header
  votes : List Vote
  certificates : List CertifiedHeader
  headerWaiter : List Header
  certificateWaiter : List CertifiedHeader
  proposer : List (List ℕ × ℕ)
  consensus : List CertifiedHeader

/-- What `expect` makes of the outcome of a call. -/
def expect : Core × Outcome → Core × Outcome
  | (s, .done) => (s, .done)
  | (s, _) => (s, .panic)

@[simp] lemma expect_done (s : Core) : expect (s, .done) = (s, .done) := rfl

lemma expect_eq_self {result : Core × Outcome} (h : result.2 = .done) : expect result = result := by
  obtain ⟨s, outcome⟩ := result
  cases h
  rfl

/-- Check that the parents of a header are of the round before, and add their stakes. -/
def checkParents (cfg : PrimaryConfig) (h : Header) :
    List CertifiedHeader → ℕ → Except DagError ℕ
  | [], stake => .ok stake
  | x :: parents, stake =>
      if x.round + 1 = h.round then
        checkParents cfg h parents ((stake + cfg.committee.stake x.origin) % 2 ^ 32)
      else .error (.malformedHeader h.id)

namespace Core

/-- `Core::spawn`. -/
def new (name : ℕ) : Core where
  name := name
  gcRound := 0
  lastVoted := []
  processing := []
  currentHeader := Header.default
  votesAggregator := VotesAggregator.new
  certificatesAggregators := fun _ => CertificatesAggregator.new
  store := []
  payload := []
  headers := []
  votes := []
  certificates := []
  headerWaiter := []
  certificateWaiter := []
  proposer := []
  consensus := []

variable (cfg : PrimaryConfig) (s : Core)

/-! ### The synchronizer -/

/-- The parent with a digest: of the genesis or in the store. -/
def parentOf (digest : ℕ) : Except DagError (Option CertifiedHeader) :=
  match cfg.genesis.find? fun g => cfg.certificateDigest g = digest with
  | some g => .ok (some g)
  | none =>
      match s.store.lookup digest with
      | none => .ok none
      | some (.certificate c) => .ok (some c)
      | some (.header _) => .error .serializationError

/-- The loop of `get_parents`: the digests that are missing and the parents found. -/
def findParents : List ℕ → Except DagError (List ℕ × List CertifiedHeader)
  | [] => .ok ([], [])
  | digest :: digests =>
      match s.parentOf cfg digest with
      | .error e => .error e
      | .ok found =>
          match findParents digests with
          | .error e => .error e
          | .ok (missing, parents) =>
              match found with
              | some c => .ok (missing, c :: parents)
              | none => .ok (digest :: missing, parents)

/-- Hand a header to the `HeaderWaiter`. -/
def suspend (h : Header) : Core := { s with headerWaiter := s.headerWaiter ++ [h] }

/-- `get_parents`. -/
def getParents (h : Header) : Core × Except DagError (List CertifiedHeader) :=
  match s.findParents cfg h.parents with
  | .error e => (s, .error e)
  | .ok ([], parents) => (s, .ok parents)
  | .ok (_ :: _, _) => (s.suspend h, .ok [])

/-- `missing_payload`. -/
def missingPayload (h : Header) : Core × Bool :=
  if h.author = s.name then (s, false)
  else if h.payload.all fun entry => entry ∈ s.payload then (s, false)
  else (s.suspend h, true)

/-- Whether `deliver_certificate` finds something under a digest. -/
def known (digest : ℕ) : Bool :=
  (cfg.genesis.any fun g => cfg.certificateDigest g = digest) || (s.store.lookup digest).isSome

/-! ### The handlers -/

/-- Indicate that a header is being processed. -/
def mark (h : Header) : Core := { s with processing := (h.round, h.id) :: s.processing }

/-- Store a header. -/
def keep (h : Header) : Core := { s with store := (h.id, .header h) :: s.store }

/-- Make a vote for a header. -/
def castVote (h : Header) : Core :=
  { s with
    lastVoted := (h.round, h.author) :: s.lastVoted
    votes := s.votes ++ [cfg.newVote h s.name] }

/-- `process_header` from the parents that were found up to the vote: the vote made, or
how the handler ends. -/
def judgeHeader (h : Header) (parents : List CertifiedHeader) : Core × Except Outcome Vote :=
  match checkParents cfg h parents 0 with
  | .error e => (s, .error (.error e))
  | .ok stake =>
      if stake < cfg.committee.quorumThreshold then
        (s, .error (.error (.headerRequiresQuorum h.id)))
      else
        match s.missingPayload h with
        | (s, true) => (s, .error .done)
        | (s, false) =>
            if (h.round, h.author) ∈ s.lastVoted then (s.keep h, .error .done)
            else ((s.keep h).castVote cfg h, .ok (cfg.newVote h s.name))

/-- `process_header` up to the vote. -/
def examineHeader (h : Header) : Core × Except Outcome Vote :=
  match (s.mark h).getParents cfg h with
  | (s, .error e) => (s, .error (.error e))
  | (s, .ok []) => (s, .error .done)
  | (s, .ok (parent :: parents)) => s.judgeHeader cfg h (parent :: parents)

/-- `process_certificate` when all parents of the certificate are known: store it, see
whether its round is complete, and send it to the consensus. -/
def deliver (c : CertifiedHeader) : Core :=
  let digest := cfg.certificateDigest c
  let appended := (s.certificatesAggregators c.round).append c.origin digest cfg.committee
  { s with
    store := (digest, .certificate c) :: s.store
    certificatesAggregators := Function.update s.certificatesAggregators c.round appended.1
    proposer := s.proposer ++ (appended.2.map fun parents => (parents, c.round)).toList
    consensus := s.consensus ++ [c] }

/-- `process_certificate` after the header of the certificate. -/
def finishCertificate (c : CertifiedHeader) : Core :=
  if c.header.parents.all (s.known cfg) then s.deliver cfg c
  else { s with certificateWaiter := s.certificateWaiter ++ [c] }

/-- `process_certificate`, given `process_header`. -/
def processCertificateWith (processHeader : Core → Header → Core × Outcome)
    (c : CertifiedHeader) : Core × Outcome :=
  if (c.header.round, c.header.id) ∈ s.processing then (s.finishCertificate cfg c, .done)
  else
    match processHeader s c.header with
    | (s, .done) => (s.finishCertificate cfg c, .done)
    | (s, outcome) => (s, outcome)

/-- Replace the aggregator of votes. -/
def count (aggregator : VotesAggregator) : Core := { s with votesAggregator := aggregator }

/-- Broadcast a certificate. -/
def broadcast (c : CertifiedHeader) : Core := { s with certificates := s.certificates ++ [c] }

/-- `process_vote`, given `process_header`. -/
def processVoteWith (processHeader : Core → Header → Core × Outcome) (vote : Vote) :
    Core × Outcome :=
  match s.votesAggregator.append vote cfg.committee s.currentHeader with
  | (aggregator, .error e) => (s.count aggregator, .error e)
  | (aggregator, .ok none) => (s.count aggregator, .done)
  | (aggregator, .ok (some c)) =>
      expect (((s.count aggregator).broadcast c).processCertificateWith cfg processHeader c)

/-- What `process_header` does with a vote: count its own, send any other to the
author of the header. -/
def handleVote (processHeader : Core → Header → Core × Outcome) (vote : Vote) :
    Core × Outcome :=
  if vote.origin = s.name then expect (s.processVoteWith cfg processHeader vote)
  else if vote.origin ∈ cfg.committee.keys then (s, .done)
  else (s, .panic)

/-- `process_header`, with a bound on the calls of itself. -/
def processHeaderWithin : ℕ → Core → Header → Core × Outcome
  | 0, s, _ => (s, .panic)
  | calls + 1, s, h =>
      match s.examineHeader cfg h with
      | (s, .error outcome) => (s, outcome)
      | (s, .ok vote) => s.handleVote cfg (processHeaderWithin calls) vote

/-- `process_header`. -/
def processHeader (h : Header) : Core × Outcome := processHeaderWithin cfg 2 s h

/-- `process_vote`. -/
def processVote (vote : Vote) : Core × Outcome := s.processVoteWith cfg (processHeader cfg) vote

/-- `process_certificate`. -/
def processCertificate (c : CertifiedHeader) : Core × Outcome :=
  s.processCertificateWith cfg (processHeader cfg) c

/-- The state in which `process_own_header` calls `process_header`. -/
def propose (h : Header) : Core :=
  { s with
    currentHeader := h
    votesAggregator := VotesAggregator.new
    headers := s.headers ++ [h] }

/-- `process_own_header`. -/
def processOwnHeader (h : Header) : Core × Outcome := (s.propose h).processHeader cfg h

/-- `sanitize_header`. -/
def sanitizeHeader (h : Header) : Except DagError Unit :=
  if s.gcRound ≤ h.round then cfg.verifyHeader h else .error (.tooOld h.id h.round)

/-- `sanitize_vote`. -/
def sanitizeVote (v : Vote) : Except DagError Unit :=
  if s.currentHeader.round ≤ v.round then
    if v.id = s.currentHeader.id ∧ v.origin = s.currentHeader.author ∧
        v.round = s.currentHeader.round then
      cfg.verifyVote v
    else .error (.unexpectedVote v.id)
  else .error (.tooOld (cfg.voteDigest v) v.round)

/-- `sanitize_certificate`. -/
def sanitizeCertificate (c : CertifiedHeader) : Except DagError Unit :=
  if s.gcRound ≤ c.round then cfg.verifyCertificate c
  else .error (.tooOld (cfg.certificateDigest c) c.round)

/-- The end of the loop of `run`, given the round that the consensus has reached. -/
def cleanup (round : ℕ) : Core :=
  if cfg.gcDepth < round then
    let gcRound := round - cfg.gcDepth
    { s with
      lastVoted := s.lastVoted.filter fun entry => gcRound ≤ entry.1
      processing := s.processing.filter fun entry => gcRound ≤ entry.1
      certificatesAggregators := fun r =>
        if gcRound ≤ r then s.certificatesAggregators r else CertificatesAggregator.new
      gcRound := gcRound }
  else s

/-! ### Headers -/

/-- The parents of a header are at hand, of the round before and a quorum, and so is
its payload. -/
structure Accepts (h : Header) (parents : List CertifiedHeader) : Prop where
  found : List.Forall₂ (fun digest c => s.parentOf cfg digest = .ok (some c)) h.parents parents
  rounds : ∀ x ∈ parents, x.round + 1 = h.round
  quorum : cfg.committee.quorumThreshold ≤
    (parents.map fun x => cfg.committee.stake x.origin).sum % 2 ^ 32
  payload : h.author = s.name ∨ ∀ entry ∈ h.payload, entry ∈ s.payload

variable {cfg s} {h : Header} {parents : List CertifiedHeader}

lemma findParents_eq_ok {digests : List ℕ} : s.findParents cfg digests = .ok ([], parents) ↔
    List.Forall₂ (fun digest c => s.parentOf cfg digest = .ok (some c)) digests parents := by
  induction digests generalizing parents with
  | nil => simp [findParents, eq_comm]
  | cons digest digests ih =>
      rw [findParents, List.forall₂_cons_left_iff]
      cases hparent : s.parentOf cfg digest with
      | error e => simp
      | ok found =>
          cases hrest : s.findParents cfg digests with
          | error e =>
              simp only [hrest, reduceCtorEq, false_iff] at ih ⊢
              rintro ⟨c, cs, -, hcs, -⟩
              exact ih hcs
          | ok result =>
              obtain ⟨missing, others⟩ := result
              cases found with
              | none => simp
              | some c =>
                  simp only [Except.ok.injEq, Prod.mk.injEq, Option.some.injEq, ← ih, hrest]
                  constructor
                  · rintro ⟨rfl, rfl⟩
                    exact ⟨c, others, rfl, ⟨rfl, rfl⟩, rfl⟩
                  · rintro ⟨c', cs, rfl, ⟨rfl, rfl⟩, rfl⟩
                    exact ⟨rfl, rfl⟩

lemma checkParents_eq_ok {stake total : ℕ} (hstake : stake < 2 ^ 32) :
    checkParents cfg h parents stake = .ok total ↔
      (∀ x ∈ parents, x.round + 1 = h.round) ∧
        total = (stake + (parents.map fun x => cfg.committee.stake x.origin).sum) % 2 ^ 32 := by
  induction parents generalizing stake with
  | nil =>
      have hself : stake % 4294967296 = stake := Nat.mod_eq_of_lt hstake
      simp [checkParents, eq_comm, hself]
  | cons x parents ih =>
      rw [checkParents]
      split
      · rename_i hround
        rw [ih (Nat.mod_lt _ (by decide)), List.forall_mem_cons, List.map_cons, List.sum_cons,
          Nat.mod_add_mod, Nat.add_assoc]
        simp [hround]
      · rename_i hround
        simp [hround]

lemma Accepts.ne_nil (ha : s.Accepts cfg h parents) : parents ≠ [] := by
  rintro rfl
  have hquorum := ha.quorum
  rw [Committee.quorumThreshold, List.map_nil, List.sum_nil] at hquorum
  omega

lemma Accepts.findParents_mark (ha : s.Accepts cfg h parents) :
    (s.mark h).findParents cfg h.parents = .ok ([], parents) :=
  findParents_eq_ok.mpr ha.found

lemma missingPayload_eq : s.missingPayload h =
    if h.author = s.name ∨ ∀ entry ∈ h.payload, entry ∈ s.payload then (s, false)
    else (s.suspend h, true) := by
  rw [missingPayload]
  by_cases hauthor : h.author = s.name
  · rw [if_pos hauthor, if_pos (Or.inl hauthor)]
  · rw [if_neg hauthor]
    simp only [hauthor, false_or, List.all_eq_true, decide_eq_true_eq]

/-- What happens to a header whose parents were found. -/
lemma judgeHeader_cases
    (hfound : List.Forall₂ (fun digest c => s.parentOf cfg digest = .ok (some c)) h.parents
      parents) :
    s.Accepts cfg h parents ∧
        ((h.round, h.author) ∈ s.lastVoted ∧
            s.judgeHeader cfg h parents = (s.keep h, .error .done) ∨
          (h.round, h.author) ∉ s.lastVoted ∧ s.judgeHeader cfg h parents =
            ((s.keep h).castVote cfg h, .ok (cfg.newVote h s.name))) ∨
      ¬s.Accepts cfg h parents ∧
        ∃ outcome ≠ Outcome.panic, s.judgeHeader cfg h parents = (s, .error outcome) ∨
          s.judgeHeader cfg h parents = (s.suspend h, .error outcome) := by
  rw [judgeHeader, missingPayload_eq]
  -- The checks in the order of the source: rounds of the parents, their stake, the payload.
  cases hcheck : checkParents cfg h parents 0 with
  | error e =>
      refine Or.inr ⟨fun ha => ?_, .error e, by simp, Or.inl rfl⟩
      rw [(checkParents_eq_ok (by decide)).mpr ⟨ha.rounds, rfl⟩] at hcheck
      cases hcheck
  | ok stake =>
      obtain ⟨hrounds, hstake⟩ := (checkParents_eq_ok (by decide)).mp hcheck
      rw [Nat.zero_add] at hstake
      by_cases hless : stake < cfg.committee.quorumThreshold
      · refine Or.inr ⟨fun ha => ?_, .error (.headerRequiresQuorum h.id), by simp, Or.inl ?_⟩
        · have hquorum := ha.quorum
          omega
        · simp only [if_pos hless]
      · simp only [if_neg hless]
        by_cases hpayload : h.author = s.name ∨ ∀ entry ∈ h.payload, entry ∈ s.payload
        · simp only [if_pos hpayload]
          refine Or.inl ⟨⟨hfound, hrounds, hstake ▸ not_lt.mp hless, hpayload⟩, ?_⟩
          by_cases hvoted : (h.round, h.author) ∈ s.lastVoted
          · exact Or.inl ⟨hvoted, if_pos hvoted⟩
          · exact Or.inr ⟨hvoted, if_neg hvoted⟩
        · simp only [if_neg hpayload]
          exact Or.inr ⟨fun ha => hpayload ha.payload, .done, by simp, Or.inr rfl⟩

/-- **What happens to a header up to the vote.** If it is accepted it is stored, and a
vote is made unless there is one for its author and round; otherwise it is dropped or
handed to the waiter. -/
theorem examineHeader_cases (cfg : PrimaryConfig) (s : Core) (h : Header) :
    (∃ parents, s.Accepts cfg h parents) ∧
        ((h.round, h.author) ∈ s.lastVoted ∧
            s.examineHeader cfg h = ((s.mark h).keep h, .error .done) ∨
          (h.round, h.author) ∉ s.lastVoted ∧ s.examineHeader cfg h =
            (((s.mark h).keep h).castVote cfg h, .ok (cfg.newVote h s.name))) ∨
      (¬∃ parents, s.Accepts cfg h parents) ∧
        ∃ outcome ≠ Outcome.panic, s.examineHeader cfg h = (s.mark h, .error outcome) ∨
          s.examineHeader cfg h = ((s.mark h).suspend h, .error outcome) := by
  -- `Accepts` determines what `findParents` returns, which refutes it on the other branches.
  have hunique : ∀ result, (s.mark h).findParents cfg h.parents = result →
      ∀ parents, s.Accepts cfg h parents → result = .ok ([], parents) :=
    fun result hresult parents ha => hresult.symm.trans ha.findParents_mark
  rw [examineHeader, getParents]
  cases hfind : (s.mark h).findParents cfg h.parents with
  | error e =>
      refine Or.inr ⟨fun ⟨parents, ha⟩ => ?_, .error e, by simp, Or.inl rfl⟩
      cases hunique _ hfind parents ha
  | ok result =>
      obtain ⟨missing, parents⟩ := result
      cases missing with
      | cons digest missing =>
          refine Or.inr ⟨fun ⟨parents', ha⟩ => ?_, .done, by simp, Or.inr rfl⟩
          cases hunique _ hfind parents' ha
      | nil =>
          cases parents with
          | nil =>
              -- Nothing missing and nothing found: the header names no parent.
              refine Or.inr ⟨fun ⟨parents', ha⟩ => ?_, .done, by simp, Or.inl rfl⟩
              cases hunique _ hfind parents' ha
              exact ha.ne_nil rfl
          | cons parent parents =>
              have hfound := findParents_eq_ok.mp hfind
              rcases judgeHeader_cases hfound with ⟨ha, hjudge⟩ | ⟨hnot, hjudge⟩
              · exact Or.inl ⟨⟨parent :: parents, ha.found, ha.rounds, ha.quorum, ha.payload⟩,
                  hjudge⟩
              · refine Or.inr ⟨fun ⟨parents', ha⟩ => ?_, hjudge⟩
                cases hunique _ hfind parents' ha
                exact hnot ⟨ha.found, ha.rounds, ha.quorum, ha.payload⟩

/-- A header without parents is dropped. -/
lemma processHeader_of_nil (cfg : PrimaryConfig) (s : Core) (hnil : h.parents = []) :
    s.processHeader cfg h = (s.mark h, .done) := by
  rw [processHeader, processHeaderWithin, examineHeader, getParents, hnil, findParents]

/-! ### The recursion -/

/-- The vote made for a header is that of the primary, and examining a header does not
count votes. -/
lemma examineHeader_vote {s' : Core} {vote : Vote}
    (hexamine : s.examineHeader cfg h = (s', .ok vote)) :
    vote = cfg.newVote h s.name ∧ s'.name = s.name ∧
      s'.votesAggregator = s.votesAggregator := by
  rcases examineHeader_cases cfg s h with ⟨-, ⟨-, heq⟩ | ⟨-, heq⟩⟩ | ⟨-, outcome, -, heq | heq⟩
  · rw [heq] at hexamine
    cases hexamine
  · rw [heq] at hexamine
    cases hexamine
    exact ⟨rfl, rfl, rfl⟩
  · rw [heq] at hexamine
    cases hexamine
  · rw [heq] at hexamine
    cases hexamine

lemma processVoteWith_of_used (f : Core → Header → Core × Outcome) {vote : Vote}
    (hused : vote.author ∈ s.votesAggregator.used) :
    s.processVoteWith cfg f vote = (s, .error (.authorityReuse vote.author)) := by
  rw [processVoteWith, VotesAggregator.append, if_pos hused]
  rfl

lemma processCertificateWith_of_mem (f : Core → Header → Core × Outcome) (s : Core)
    {c : CertifiedHeader} (hmem : (c.header.round, c.header.id) ∈ s.processing) :
    s.processCertificateWith cfg f c = (s.finishCertificate cfg c, .done) :=
  if_pos hmem

/-- Once the vote of the primary is counted, processing a header makes no further
call. -/
lemma processHeaderWithin_of_used (hused : s.name ∈ s.votesAggregator.used) (calls : ℕ) :
    processHeaderWithin cfg (calls + 1) s h = processHeaderWithin cfg 1 s h := by
  rw [processHeaderWithin, processHeaderWithin]
  cases hexamine : s.examineHeader cfg h with
  | mk s' result =>
      cases result with
      | error outcome => rfl
      | ok vote =>
          obtain ⟨rfl, hname, hagg⟩ := examineHeader_vote hexamine
          have hused' : (cfg.newVote h s.name).author ∈ s'.votesAggregator.used := hagg ▸ hused
          simp only [handleVote, processVoteWith_of_used _ hused']

/-- **Two calls of `process_header` are enough**: more make no difference. -/
theorem processHeader_add (cfg : PrimaryConfig) (s : Core) (h : Header) (calls : ℕ) :
    processHeaderWithin cfg (calls + 2) s h = s.processHeader cfg h := by
  rw [processHeader, processHeaderWithin, processHeaderWithin]
  cases hexamine : s.examineHeader cfg h with
  | mk s' result =>
      cases result with
      | error outcome => rfl
      | ok vote =>
          obtain ⟨rfl, hname, hagg⟩ := examineHeader_vote hexamine
          simp only [handleVote, processVoteWith]
          rcases s'.votesAggregator.append_cases (cfg.newVote h s.name) cfg.committee
            s'.currentHeader with ⟨-, happend⟩ | ⟨-, -, happend⟩ | ⟨-, -, happend⟩
          · rw [happend]
          · rw [happend]
          · -- The vote just counted is in the way of a second one.
            have hused : s'.name ∈ s'.votesAggregator.used ++ [(cfg.newVote h s.name).author] :=
              List.mem_append_right _ (List.mem_singleton.mpr hname)
            rw [happend]
            simp only [processCertificateWith]
            rw [processHeaderWithin_of_used hused, processHeaderWithin_of_used hused]

end Core

end StablecoinSystem.Primary
