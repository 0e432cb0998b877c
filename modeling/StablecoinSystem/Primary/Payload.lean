import StablecoinSystem.Primary.Network

/-!
The digests of batches, from the workers to the headers of a primary
(`primary/src/proposer.rs`).

* `Core.headers_processHeader`: the handlers of the core do not propose;
* `Batched`: the payloads of headers and the digests that wait, in terms of the digests
  that were reported;
* `batches_conserved`: over any run, each header has the digests that were reported
  since the one before it, and none is lost.
-/

namespace StablecoinSystem.Primary

variable {cfg : PrimaryConfig}

/-! ### The headers of the core -/

namespace Core

variable {f : Core → Header → Core × Outcome}

lemma headers_expect (result : Core × Outcome) : (expect result).1.headers = result.1.headers := by
  obtain ⟨s, outcome⟩ := result
  cases outcome <;> rfl

lemma headers_examineHeader (cfg : PrimaryConfig) (s : Core) (h : Header) :
    (s.examineHeader cfg h).1.headers = s.headers := by
  rcases examineHeader_cases cfg s h with ⟨-, ⟨-, heq⟩ | ⟨-, heq⟩⟩ | ⟨-, outcome, -, heq | heq⟩
  all_goals
    rw [heq]
    rfl

lemma headers_processCertificateWith (hf : ∀ s h, (f s h).1.headers = s.headers) (s : Core)
    (c : CertifiedHeader) : (s.processCertificateWith cfg f c).1.headers = s.headers := by
  rw [processCertificateWith]
  split
  · exact (Extends.finishCertificate cfg s c).headers
  · have hheaders := hf s c.header
    split
    · rename_i s' heq
      rw [heq] at hheaders
      exact (Extends.finishCertificate cfg s' c).headers.trans hheaders
    · rename_i s' outcome hdone heq
      rwa [heq] at hheaders

lemma headers_processVoteWith (hf : ∀ s h, (f s h).1.headers = s.headers) (s : Core)
    (vote : Vote) : (s.processVoteWith cfg f vote).1.headers = s.headers := by
  rw [processVoteWith]
  split
  · rfl
  · rfl
  · rw [headers_expect, headers_processCertificateWith hf]
    rfl

lemma headers_handleVote (hf : ∀ s h, (f s h).1.headers = s.headers) (s : Core) (vote : Vote) :
    (s.handleVote cfg f vote).1.headers = s.headers := by
  rw [handleVote]
  split_ifs
  · rw [headers_expect, headers_processVoteWith hf]
  · rfl
  · rfl

lemma headers_processHeaderWithin (calls : ℕ) (s : Core) (h : Header) :
    (processHeaderWithin cfg calls s h).1.headers = s.headers := by
  induction calls generalizing s h with
  | zero => rfl
  | succ calls ih =>
      have hheaders := headers_examineHeader cfg s h
      rw [processHeaderWithin]
      split
      · rename_i s' outcome heq
        rwa [heq] at hheaders
      · rename_i s' vote heq
        rw [heq] at hheaders
        rw [headers_handleVote ih]
        exact hheaders

/-- The handlers of the core do not propose. -/
lemma headers_processHeader (s : Core) (h : Header) :
    (s.processHeader cfg h).1.headers = s.headers :=
  headers_processHeaderWithin 2 s h

lemma headers_receiveHeader (s : Core) (h : Header) :
    (s.receiveHeader cfg h).1.headers = s.headers := by
  rw [receiveHeader]
  split
  · exact headers_processHeader s h
  · rfl

lemma headers_receiveVote (s : Core) (vote : Vote) :
    (s.receiveVote cfg vote).1.headers = s.headers := by
  rw [receiveVote]
  split
  · exact headers_processVoteWith headers_processHeader s vote
  · rfl

lemma headers_receiveCertificate (s : Core) (c : CertifiedHeader) :
    (s.receiveCertificate cfg c).1.headers = s.headers := by
  rw [receiveCertificate]
  split
  · exact headers_processCertificateWith headers_processHeader s c
  · rfl

end Core

/-! ### Digests -/

/-- The digests that the workers of a primary report. -/
def reported (events : List Event) : List (ℕ × ℕ) :=
  events.filterMap fun
    | .ourDigest digest worker _ => some (digest, worker)
    | _ => none

/-- The payloads are those of consecutive groups of the digests that were reported,
and the digests that wait are the rest. -/
def Batched (payloads : List (List (ℕ × ℕ))) (waiting digests : List (ℕ × ℕ)) : Prop :=
  ∃ groups : List (List (ℕ × ℕ)), groups.flatten ++ waiting = digests ∧
    payloads = groups.map (collectBy Prod.fst)

lemma Batched.check {p : Proposer} {payloads : List (List (ℕ × ℕ))} {digests : List (ℕ × ℕ)}
    (hb : Batched payloads p.digests digests) (cfg : PrimaryConfig) (name : ℕ) (expired : Bool) :
    Batched (payloads ++ (p.check cfg name expired).2.map Header.payload)
      (p.check cfg name expired).1.digests digests := by
  obtain ⟨groups, rfl, rfl⟩ := hb
  rw [Proposer.check]
  split
  · refine ⟨groups ++ [p.digests], ?_, ?_⟩
    · rw [List.flatten_append, List.flatten_singleton, List.append_nil]
    · rw [List.map_append]
      rfl
  · exact ⟨groups, rfl, List.append_nil _⟩

/-- If no digest is reported twice, all are in the payloads or wait. -/
lemma Batched.perm {payloads : List (List (ℕ × ℕ))} {waiting digests : List (ℕ × ℕ)}
    (hb : Batched payloads waiting digests) (hdistinct : (digests.map Prod.fst).Nodup) :
    (payloads.flatten ++ waiting).Perm digests := by
  obtain ⟨groups, rfl, rfl⟩ := hb
  rw [List.map_append, List.nodup_append] at hdistinct
  refine List.Perm.append_right _ ?_
  have hgroups := hdistinct.1
  clear hdistinct
  induction groups with
  | nil => exact List.Perm.refl _
  | cons group groups ih =>
      rw [List.flatten_cons, List.map_append, List.nodup_append] at hgroups
      rw [List.map_cons, List.flatten_cons, List.flatten_cons]
      exact (collectBy_perm hgroups.1).append (ih hgroups.2.1)

/-- All headers of a primary, those that its core has not taken included. -/
def Node.proposed (n : Node) : List Header := n.core.headers ++ n.headers

/-- What a primary has proposed and what waits at its proposer, in terms of the digests
that were reported to it. -/
def Node.Batches (n : Node) (digests : List (ℕ × ℕ)) : Prop :=
  Batched (n.proposed.map Header.payload) n.proposer.digests digests

namespace Node

variable {n : Node} {digests : List (ℕ × ℕ)}

lemma proposed_conclude (cfg : PrimaryConfig) (n : Node) (result : Core × Outcome) :
    (n.conclude cfg result).proposed = result.1.headers ++ n.headers ∧
      (n.conclude cfg result).proposer = n.proposer := by
  obtain ⟨s, outcome⟩ := result
  have hcleanup := (s.cleanup_logs cfg n.consensusRound).2.1
  cases outcome with
  | done | error _ => exact ⟨congrArg (· ++ n.headers) hcleanup, rfl⟩
  | panic => exact ⟨rfl, rfl⟩

/-- A turn of the core that proposes nothing. -/
lemma Batches.conclude (hb : n.Batches digests) {result : Core × Outcome}
    (hheaders : result.1.headers = n.core.headers) :
    (n.conclude cfg result).Batches digests := by
  obtain ⟨hproposed, hproposer⟩ := n.proposed_conclude cfg result
  rwa [Batches, hproposed, hproposer, hheaders]

/-- The head of the loop of the proposer. -/
lemma batches_proposes {p : Proposer}
    (hb : Batched (n.proposed.map Header.payload) p.digests digests) (expired : Bool) :
    (n.proposes cfg p expired).Batches digests := by
  have hcheck := hb.check cfg n.core.name expired
  rwa [← List.map_append, proposed, List.append_assoc] at hcheck

lemma Batches.loopHeader (hb : n.Batches digests) (i : ℕ) :
    (n.loopHeader cfg i).Batches digests := by
  rw [Node.loopHeader]
  split
  · exact hb
  · exact hb.conclude (Core.headers_processHeader _ _)

lemma Batches.loopCertificate (hb : n.Batches digests) (i : ℕ) :
    (n.loopCertificate cfg i).Batches digests := by
  rw [Node.loopCertificate]
  split
  · exact hb
  · exact hb.conclude (Core.headers_processCertificateWith Core.headers_processHeader _ _)

/-- The core takes a header from the queue. -/
lemma Batches.takeHeader (hb : n.Batches digests) : (n.takeHeader cfg).Batches digests := by
  rw [Node.takeHeader]
  split
  · exact hb
  · rename_i h headers hqueue
    obtain ⟨hproposed, hproposer⟩ := proposed_conclude cfg { n with headers := headers }
      (n.core.processOwnHeader cfg h)
    have hown : (n.core.processOwnHeader cfg h).1.headers = n.core.headers ++ [h] :=
      Core.headers_processHeader _ _
    rw [Batches, proposed, hqueue] at hb
    rwa [Batches, hproposed, hproposer, hown, List.append_assoc, List.singleton_append]

lemma Batches.takeParents (hb : n.Batches digests) (expired : Bool) :
    (n.takeParents cfg expired).Batches digests := by
  rw [Node.takeParents]
  split
  · exact hb
  · rename_i parents round rest hqueue
    refine batches_proposes ?_ expired
    rw [Proposer.receiveParents]
    split <;> exact hb

/-- One turn. -/
lemma Batches.handle (hb : n.Batches digests) (e : Event) :
    (n.handle cfg e).Batches (digests ++ reported [e]) := by
  have hnone : reported [e] = [] → n.Batches (digests ++ reported [e]) := fun h => by
    rwa [h, List.append_nil]
  cases e with
  | header h => exact (hnone rfl).conclude (Core.headers_receiveHeader _ _)
  | vote v => exact (hnone rfl).conclude (Core.headers_receiveVote _ _)
  | certificate c => exact (hnone rfl).conclude (Core.headers_receiveCertificate _ _)
  | headerLoopback i => exact (hnone rfl).loopHeader i
  | certificateLoopback i => exact (hnone rfl).loopCertificate i
  | ownHeader => exact (hnone rfl).takeHeader
  | parents expired => exact (hnone rfl).takeParents expired
  | ourDigest digest worker expired =>
      obtain ⟨groups, hdigests, hpayloads⟩ := hb
      refine batches_proposes ⟨groups, ?_, hpayloads⟩ expired
      rw [← hdigests, List.append_assoc]
      rfl
  | timer => exact batches_proposes (hnone rfl) true
  | othersDigest digest worker => exact hnone rfl
  | committed round => exact hnone rfl

end Node

/-- **No batch is lost on the way into the headers.** Over any run of a primary that has
not panicked, whatever it receives, the payload of each header is the digests that its
workers have reported since the header before, and what was reported since the last
header waits. -/
theorem batches_conserved (cfg : PrimaryConfig) (name : ℕ) (events : List Event)
    (hrun : (Node.run cfg name events).halted = false) :
    (Node.run cfg name events).Batches (reported events) ∧
      (((reported events).map Prod.fst).Nodup →
        ((Node.run cfg name events).proposed.flatMap Header.payload ++
          (Node.run cfg name events).proposer.digests).Perm (reported events)) := by
  have hbatches : (Node.run cfg name events).Batches (reported events) := by
    induction events using List.reverseRecOn with
    | nil => exact Node.batches_proposes ⟨[], rfl, rfl⟩ false
    | append_singleton events e ih =>
        have hsplit : Node.run cfg name (events ++ [e]) =
            (Node.run cfg name events).step cfg e := by
          rw [Node.run, List.foldl_append]
          rfl
        have hrunning : (Node.run cfg name events).halted = false := by
          by_contra hhalted
          rw [hsplit, Node.step, if_pos (by simpa using hhalted)] at hrun
          exact hhalted hrun
        rw [hsplit, Node.step, if_neg (by simp [hrunning]), reported, List.filterMap_append]
        exact (ih hrunning).handle e
  refine ⟨hbatches, fun hdistinct => ?_⟩
  rw [List.flatMap_def]
  exact hbatches.perm hdistinct

/-- Two batches before the first header, one before the second, and one after it. -/
def fourBatches : List Event :=
  [.ourDigest 9 0 false, .ourDigest 7 0 false, .timer, .ownHeader, .ourDigest 8 0 false,
    .parents false, .timer, .ownHeader, .ourDigest 6 0 false]

theorem batches_conserved_fourBatches :
    (Node.run twoPrimaries 0 fourBatches).proposed.map Header.payload =
        [[(7, 0), (9, 0)], [(8, 0)]] ∧
      (Node.run twoPrimaries 0 fourBatches).proposer.digests = [(6, 0)] ∧
      ((Node.run twoPrimaries 0 fourBatches).proposed.flatMap Header.payload ++
        (Node.run twoPrimaries 0 fourBatches).proposer.digests).Perm (reported fourBatches) :=
  ⟨by decide +kernel, by decide +kernel,
    (batches_conserved twoPrimaries 0 fourBatches (by decide +kernel)).2 (by decide)⟩

end StablecoinSystem.Primary
