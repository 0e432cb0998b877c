import StablecoinSystem.Primary.Core
import StablecoinSystem.Support.Sorted

/-!
A primary: its core, its proposer and the tasks beside them (`primary/src/core.rs`,
`primary/src/proposer.rs`, `primary/src/garbage_collector.rs`,
`primary/src/payload_receiver.rs`, and `header_waiter.rs` and `certificate_waiter.rs` as
far as they give back what they were handed).

A step is one turn of the loop of a task. A turn of the core ends with the cleanup.
A turn of the proposer ends with the check at the head of the next turn, which is
given whether the timer has expired. The waiters may give back what they hold at any
time: they wait for data to be stored, which the model does not.
-/

namespace StablecoinSystem.Primary

/-- `Proposer`, without its channels. -/
structure Proposer where
  round : ℕ
  lastParents : List ℕ
  digests : List (ℕ × ℕ)
  payloadSize : ℕ

/-- `Digest::size`. -/
def digestSize : ℕ := 32

namespace Proposer

variable (cfg : PrimaryConfig) (name : ℕ) (p : Proposer)

/-- `Proposer::spawn`. -/
def new : Proposer := ⟨1, cfg.genesis.map cfg.certificateDigest, [], 0⟩

/-- `make_header`: the header. The payload is collected into a `BTreeMap` and the
parents into a `BTreeSet`. -/
def makeHeader : Header :=
  cfg.newHeader name p.round (collectBy Prod.fst p.digests) (collectBy id p.lastParents)
    (pairwise_collectBy Prod.fst p.digests) (pairwise_collectBy_id p.lastParents)

/-- The head of the loop of `run`, and the header made there. -/
def check (expired : Bool) : Proposer × List Header :=
  if (expired ∨ cfg.headerSize ≤ p.payloadSize) ∧ p.lastParents ≠ [] then
    (⟨p.round, [], [], 0⟩, [p.makeHeader cfg name])
  else (p, [])

/-- Receive parents from the core. -/
def receiveParents (parents : List ℕ) (round : ℕ) : Proposer :=
  if round < p.round then p else { p with round := round + 1, lastParents := parents }

/-- Receive the digest of a batch from a worker. -/
def receiveDigest (digest worker : ℕ) : Proposer :=
  { p with
    digests := p.digests ++ [(digest, worker)]
    payloadSize := p.payloadSize + digestSize }

end Proposer

/-- The tasks of a primary. `headers` are those that the proposer has made and the core
has not taken, `consensusRound` is the atomic variable of the garbage collector. The
core has `halted` when it has panicked. -/
structure Node where
  core : Core
  proposer : Proposer
  headers : List Header
  consensusRound : ℕ
  halted : Bool

/-- What the tasks of a primary receive. The two loopbacks name the position of what
is given back in the waiter. -/
inductive Event where
  | header (h : Header)
  | vote (v : Vote)
  | certificate (c : CertifiedHeader)
  | headerLoopback (i : ℕ)
  | certificateLoopback (i : ℕ)
  | ownHeader
  | parents (expired : Bool)
  | ourDigest (digest worker : ℕ) (expired : Bool)
  | timer
  | othersDigest (digest worker : ℕ)
  | committed (round : ℕ)

namespace Core

variable (cfg : PrimaryConfig) (s : Core)

/-- A header from another primary. -/
def receiveHeader (h : Header) : Core × Outcome :=
  match s.sanitizeHeader cfg h with
  | .ok () => s.processHeader cfg h
  | .error e => (s, .error e)

/-- A vote from another primary. -/
def receiveVote (v : Vote) : Core × Outcome :=
  match s.sanitizeVote cfg v with
  | .ok () => s.processVote cfg v
  | .error e => (s, .error e)

/-- A certificate from another primary. -/
def receiveCertificate (c : CertifiedHeader) : Core × Outcome :=
  match s.sanitizeCertificate cfg c with
  | .ok () => s.processCertificate cfg c
  | .error e => (s, .error e)

end Core

namespace Node

variable (cfg : PrimaryConfig) (n : Node)

/-- The proposer after the head of its loop, and the header it sends to the core. -/
def proposes (p : Proposer) (expired : Bool) : Node :=
  { n with
    proposer := (p.check cfg n.core.name expired).1
    headers := n.headers ++ (p.check cfg n.core.name expired).2 }

/-- A primary with the given name. The proposer has been at the head of its loop. -/
def start (name : ℕ) : Node :=
  Node.proposes cfg ⟨Core.new name, Proposer.new cfg, [], 0, false⟩ (Proposer.new cfg) false

/-- The end of a turn of the core. -/
def conclude : Core × Outcome → Node
  | (s, .panic) => { n with core := s, halted := true }
  | (s, _) => { n with core := s.cleanup cfg n.consensusRound }

lemma conclude_eq {result : Core × Outcome} (h : result.2 ≠ .panic) :
    n.conclude cfg result = { n with core := result.1.cleanup cfg n.consensusRound } := by
  obtain ⟨s, outcome⟩ := result
  cases outcome with
  | done => rfl
  | error e => rfl
  | panic => exact absurd rfl h

/-- The `HeaderWaiter` gives back a header. -/
def loopHeader (i : ℕ) : Node :=
  match n.core.headerWaiter[i]? with
  | none => n
  | some h =>
      n.conclude cfg
        ({ n.core with headerWaiter := n.core.headerWaiter.eraseIdx i }.processHeader cfg h)

/-- The `CertificateWaiter` gives back a certificate. -/
def loopCertificate (i : ℕ) : Node :=
  match n.core.certificateWaiter[i]? with
  | none => n
  | some c =>
      n.conclude cfg
        ({ n.core with
          certificateWaiter := n.core.certificateWaiter.eraseIdx i }.processCertificate cfg c)

/-- The core takes the next header of the proposer. -/
def takeHeader : Node :=
  match n.headers with
  | [] => n
  | h :: headers => { n with headers := headers }.conclude cfg (n.core.processOwnHeader cfg h)

/-- The proposer takes the next parents from the core. -/
def takeParents (expired : Bool) : Node :=
  match n.core.proposer with
  | [] => n
  | (parents, round) :: rest =>
      { n with core := { n.core with proposer := rest } }.proposes cfg
        (n.proposer.receiveParents parents round) expired

/-- One turn of a task. -/
def handle : Event → Node
  | .header h => n.conclude cfg (n.core.receiveHeader cfg h)
  | .vote v => n.conclude cfg (n.core.receiveVote cfg v)
  | .certificate c => n.conclude cfg (n.core.receiveCertificate cfg c)
  | .headerLoopback i => n.loopHeader cfg i
  | .certificateLoopback i => n.loopCertificate cfg i
  | .ownHeader => n.takeHeader cfg
  | .parents expired => n.takeParents cfg expired
  | .ourDigest digest worker expired =>
      n.proposes cfg (n.proposer.receiveDigest digest worker) expired
  | .timer => n.proposes cfg n.proposer true
  | .othersDigest digest worker =>
      { n with core := { n.core with payload := (digest, worker) :: n.core.payload } }
  | .committed round => { n with consensusRound := max n.consensusRound round }

/-- One turn of a task, unless the core has panicked. -/
def step (n : Node) (e : Event) : Node := if n.halted then n else n.handle cfg e

/-- A primary after some turns of its tasks. -/
def run (name : ℕ) (events : List Event) : Node := events.foldl (step cfg) (start cfg name)

end Node

end StablecoinSystem.Primary
