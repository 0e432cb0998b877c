import Mathlib.Logic.Equiv.List
import StablecoinSystem.Narwhal.Stake

/-!
The messages of the primaries (`primary/src/messages.rs`, `primary/src/error.rs`,
`crypto/src/lib.rs`): headers, votes and certificates, and the checks that are made of
them.

Keys, digests and signatures are numbers. `Header::digest` hashes the payload and
the parents one after the other, without their lengths. So two headers can be the same
string of bytes, one with eight batches and the other with nine parents more, and a
header with one parent can be that of a vote. That this does not happen among the
headers of a run is assumed where it is needed, and only of those headers.

Stakes are `u32`, and their sums wrap as in a release build.

* `CollisionFree`: the digests of a set of headers are distinct;
* `checkVotes_eq_ok`: the loop over the votes of a certificate;
* `verifyCertificate_eq_ok`: a certificate that is accepted is a lookalike of the
  genesis, or has a header that is accepted and a quorum of votes that verify.
-/

namespace StablecoinSystem

/-- Digests and signatures. `headerHash` is the hash under `Header::digest`,
`voteHash` that under `Vote::digest` and `Certificate::digest`, whose fields have fixed
widths. `verify` takes a signature, a digest and a key. -/
structure Crypto where
  headerHash : ℕ → ℕ → List (ℕ × ℕ) → List ℕ → ℕ
  voteHash : ℕ → ℕ → ℕ → ℕ
  sign : ℕ → ℕ → ℕ
  verify : ℕ → ℕ → ℕ → Bool
  voteHash_inj : ∀ id round origin id' round' origin',
    voteHash id round origin = voteHash id' round' origin' →
      id = id' ∧ round = round' ∧ origin = origin'
  verify_sign : ∀ key digest, verify (sign key digest) digest key = true

namespace Crypto

open Encodable (encode)

/-- The digest of a header in `coded`, an even number. -/
def codedHeader (author round : ℕ) (payload : List (ℕ × ℕ)) (parents : List ℕ) : ℕ :=
  2 * encode (parents, author, round, payload)

/-- The digest of a vote in `coded`, an odd number. -/
def codedVote (id round origin : ℕ) : ℕ := 2 * encode (id, round, origin) + 1

lemma codedHeader_inj (author round : ℕ) (payload : List (ℕ × ℕ)) (parents : List ℕ)
    (author' round' : ℕ) (payload' : List (ℕ × ℕ)) (parents' : List ℕ)
    (h : codedHeader author round payload parents =
      codedHeader author' round' payload' parents') :
    author = author' ∧ round = round' ∧ payload = payload' ∧ parents = parents' := by
  have heq := Encodable.encode_injective (Nat.eq_of_mul_eq_mul_left Nat.two_pos h)
  simp only [Prod.mk.injEq] at heq
  obtain ⟨hparents, hauthor, hround, hpayload⟩ := heq
  exact ⟨hauthor, hround, hpayload, hparents⟩

lemma codedVote_inj (id round origin id' round' origin' : ℕ)
    (h : codedVote id round origin = codedVote id' round' origin') :
    id = id' ∧ round = round' ∧ origin = origin' := by
  have heq := Encodable.encode_injective
    (Nat.eq_of_mul_eq_mul_left Nat.two_pos (Nat.add_right_cancel h))
  simpa only [Prod.mk.injEq] using heq

lemma codedHeader_ne_codedVote (author round : ℕ) (payload : List (ℕ × ℕ))
    (parents : List ℕ) (id round' origin : ℕ) :
    codedHeader author round payload parents ≠ codedVote id round' origin := by
  unfold codedHeader codedVote
  omega

/-- Cryptography without collisions: digests are codes, and a signature adds the key to
the digest. -/
def coded : Crypto where
  headerHash := codedHeader
  voteHash := codedVote
  sign key digest := key + digest
  verify signature digest key := signature == key + digest
  voteHash_inj := codedVote_inj
  verify_sign _ _ := beq_self_eq_true _

end Crypto

/-- What all primaries share: the committee, the ids of the workers of each
authority, the parameters, and the cryptography. -/
structure PrimaryConfig where
  committee : Committee
  workers : ℕ → List ℕ
  headerSize : ℕ
  gcDepth : ℕ
  crypto : Crypto

/-- `DagError`, without the failures of the storage. -/
inductive DagError where
  | invalidSignature
  | serializationError
  | invalidHeaderId
  | malformedHeader (id : ℕ)
  | unknownAuthority (name : ℕ)
  | authorityReuse (name : ℕ)
  | unexpectedVote (id : ℕ)
  | certificateRequiresQuorum
  | headerRequiresQuorum (id : ℕ)
  | tooOld (digest round : ℕ)
  deriving DecidableEq

/-- `Header`. The payload is a `BTreeMap` from digests of batches to worker ids, the
parents are a `BTreeSet` of digests. -/
structure Header where
  author : ℕ
  round : ℕ
  payload : List (ℕ × ℕ)
  parents : List ℕ
  id : ℕ
  signature : ℕ
  payloadSorted : (payload.map Prod.fst).Pairwise (· < ·)
  parentsSorted : parents.Pairwise (· < ·)

/-- `Vote`. -/
structure Vote where
  id : ℕ
  round : ℕ
  origin : ℕ
  author : ℕ
  signature : ℕ
  deriving DecidableEq

/-- `Certificate`: a header with the votes for it. -/
structure CertifiedHeader where
  header : Header
  votes : List (ℕ × ℕ)

lemma Header.sorted_noPayload : (([] : List (ℕ × ℕ)).map Prod.fst).Pairwise (· < ·) := .nil

lemma Header.sorted_noParents : ([] : List ℕ).Pairwise (· < ·) := .nil

/-- `Header::default`. -/
def Header.default : Header :=
  ⟨0, 0, [], [], 0, 0, Header.sorted_noPayload, Header.sorted_noParents⟩

namespace CertifiedHeader

/-- `Certificate::round`. -/
def round (c : CertifiedHeader) : ℕ := c.header.round

/-- `Certificate::origin`. -/
def origin (c : CertifiedHeader) : ℕ := c.header.author

/-- What the consensus reads of a certificate. -/
def toCertificate (c : CertifiedHeader) : Certificate :=
  ⟨c.header.id, c.header.round, c.header.author, c.header.parents, c.header.parentsSorted⟩

@[simp] lemma round_toCertificate (c : CertifiedHeader) : c.toCertificate.round = c.round := rfl

/-- `PartialEq` for certificates. -/
def eq (c c' : CertifiedHeader) : Bool :=
  c.header.id == c'.header.id && c.round == c'.round && c.origin == c'.origin

end CertifiedHeader

namespace PrimaryConfig

variable (cfg : PrimaryConfig)

/-- `Header::digest`. -/
def headerDigest (h : Header) : ℕ :=
  cfg.crypto.headerHash h.author h.round h.payload h.parents

/-- `Vote::digest`. -/
def voteDigest (v : Vote) : ℕ := cfg.crypto.voteHash v.id v.round v.origin

/-- `Certificate::digest`. -/
def certificateDigest (c : CertifiedHeader) : ℕ :=
  cfg.crypto.voteHash c.header.id c.round c.origin

/-- `Certificate::genesis`. -/
def genesis : List CertifiedHeader :=
  cfg.committee.keys.map fun name => ⟨{ Header.default with author := name }, []⟩

/-- `Header::new`. -/
def newHeader (author round : ℕ) (payload : List (ℕ × ℕ)) (parents : List ℕ)
    (payloadSorted : (payload.map Prod.fst).Pairwise (· < ·))
    (parentsSorted : parents.Pairwise (· < ·)) : Header :=
  let id := cfg.crypto.headerHash author round payload parents
  ⟨author, round, payload, parents, id, cfg.crypto.sign author id, payloadSorted, parentsSorted⟩

/-- `Header::verify`. -/
def verifyHeader (h : Header) : Except DagError Unit :=
  if cfg.headerDigest h ≠ h.id then .error .invalidHeaderId
  else if cfg.committee.stake h.author = 0 then .error (.unknownAuthority h.author)
  else if h.payload.any fun entry => entry.2 ∉ cfg.workers h.author then
    .error (.malformedHeader h.id)
  else if cfg.crypto.verify h.signature h.id h.author then .ok ()
  else .error .invalidSignature

/-- `Vote::new`. -/
def newVote (h : Header) (author : ℕ) : Vote :=
  ⟨h.id, h.round, h.author, author,
    cfg.crypto.sign author (cfg.crypto.voteHash h.id h.round h.author)⟩

/-- `Vote::verify`. -/
def verifyVote (v : Vote) : Except DagError Unit :=
  if cfg.committee.stake v.author = 0 then .error (.unknownAuthority v.author)
  else if cfg.crypto.verify v.signature (cfg.voteDigest v) v.author then .ok ()
  else .error .invalidSignature

/-- The loop of `Certificate::verify` over the votes: their weight, given the names
and the weight before. -/
def checkVotes : List (ℕ × ℕ) → List ℕ → ℕ → Except DagError ℕ
  | [], _, weight => .ok weight
  | vote :: votes, used, weight =>
      if vote.1 ∈ used then .error (.authorityReuse vote.1)
      else if cfg.committee.stake vote.1 = 0 then .error (.unknownAuthority vote.1)
      else checkVotes votes (vote.1 :: used) ((weight + cfg.committee.stake vote.1) % 2 ^ 32)

/-- `Certificate::verify`. -/
def verifyCertificate (c : CertifiedHeader) : Except DagError Unit :=
  if cfg.genesis.any fun g => g.eq c then .ok ()
  else
    match cfg.verifyHeader c.header with
    | .error e => .error e
    | .ok () =>
        match cfg.checkVotes c.votes [] 0 with
        | .error e => .error e
        | .ok weight =>
            if weight < cfg.committee.quorumThreshold then .error .certificateRequiresQuorum
            else if c.votes.all fun vote =>
                cfg.crypto.verify vote.2 (cfg.certificateDigest c) vote.1 then .ok ()
            else .error .invalidSignature

variable {cfg} {c c' : CertifiedHeader} {h : Header} {v : Vote}

lemma genesis_toCertificate :
    cfg.genesis.map CertifiedHeader.toCertificate = Certificate.genesis cfg.committee := by
  rw [genesis, List.map_map, Certificate.genesis]
  rfl

lemma round_of_mem_genesis (h : c ∈ cfg.genesis) : c.round = 0 := by
  obtain ⟨name, -, rfl⟩ := List.mem_map.mp h
  rfl

/-- What passes `Header::verify`. -/
lemma verifyHeader_eq_ok : cfg.verifyHeader h = .ok () ↔
    cfg.headerDigest h = h.id ∧ cfg.committee.stake h.author ≠ 0 ∧
      (∀ entry ∈ h.payload, entry.2 ∈ cfg.workers h.author) ∧
      cfg.crypto.verify h.signature h.id h.author = true := by
  rw [verifyHeader]
  split_ifs with hid hstake hworkers hsig
  · simp [hid]
  · simp [hstake]
  · have hbad : ¬∀ entry ∈ h.payload, entry.2 ∈ cfg.workers h.author := by
      simpa using hworkers
    simp only [hbad, false_and, and_false]
  · simpa [hsig, not_not.mp hid, hstake] using hworkers
  · simp [hsig]

/-- What passes `Vote::verify`. -/
lemma verifyVote_eq_ok : cfg.verifyVote v = .ok () ↔
    cfg.committee.stake v.author ≠ 0 ∧
      cfg.crypto.verify v.signature (cfg.voteDigest v) v.author = true := by
  rw [verifyVote]
  split_ifs with hstake hsig
  · simp [hstake]
  · simp [hstake, hsig]
  · simp [hsig]

/-- The loop over the votes succeeds if the names are new, distinct and of
authorities, and then adds their stakes. -/
lemma checkVotes_eq_ok {votes : List (ℕ × ℕ)} {used : List ℕ} {weight total : ℕ}
    (hweight : weight < 2 ^ 32) :
    cfg.checkVotes votes used weight = .ok total ↔
      (votes.map Prod.fst).Nodup ∧ (∀ vote ∈ votes, vote.1 ∉ used) ∧
        (∀ vote ∈ votes, cfg.committee.stake vote.1 ≠ 0) ∧
        total = (weight + (votes.map fun vote => cfg.committee.stake vote.1).sum) % 2 ^ 32 := by
  induction votes generalizing used weight with
  | nil =>
      have hself : weight % 4294967296 = weight := Nat.mod_eq_of_lt hweight
      simp [checkVotes, eq_comm, hself]
  | cons vote votes ih =>
      rw [checkVotes]
      split_ifs with hused hstake
      · simp [hused]
      · simp [hstake]
      · rw [ih (Nat.mod_lt _ (by decide)), List.map_cons, List.nodup_cons, List.map_cons,
          List.sum_cons, Nat.mod_add_mod, Nat.add_assoc]
        constructor
        · rintro ⟨hnodup, hnew, hpos, rfl⟩
          refine ⟨⟨fun hmem => ?_, hnodup⟩, List.forall_mem_cons.mpr ⟨hused, fun v hv hmem =>
            hnew v hv (List.mem_cons_of_mem _ hmem)⟩, List.forall_mem_cons.mpr ⟨hstake, hpos⟩,
            rfl⟩
          obtain ⟨v, hv, heq⟩ := List.mem_map.mp hmem
          exact hnew v hv (heq ▸ List.mem_cons_self ..)
        · rintro ⟨⟨hhead, hnodup⟩, hnew, hpos, rfl⟩
          refine ⟨hnodup, fun v hv hmem => ?_, (List.forall_mem_cons.mp hpos).2, rfl⟩
          rcases List.mem_cons.mp hmem with heq | hmem
          · exact hhead (heq ▸ List.mem_map_of_mem hv)
          · exact (List.forall_mem_cons.mp hnew).2 v hv hmem

/-- A quorum of votes that verify. -/
structure Endorsed (cfg : PrimaryConfig) (c : CertifiedHeader) : Prop where
  nodup : (c.votes.map Prod.fst).Nodup
  stake : ∀ vote ∈ c.votes, cfg.committee.stake vote.1 ≠ 0
  quorum : cfg.committee.quorumThreshold ≤
    (c.votes.map fun vote => cfg.committee.stake vote.1).sum
  verify : ∀ vote ∈ c.votes, cfg.crypto.verify vote.2 (cfg.certificateDigest c) vote.1 = true

/-- A quorum of votes that verify, also if their stakes are added up as `u32`. -/
structure HasQuorum (cfg : PrimaryConfig) (c : CertifiedHeader) : Prop extends
    Endorsed cfg c where
  wrapped : cfg.committee.quorumThreshold ≤
    (c.votes.map fun vote => cfg.committee.stake vote.1).sum % 2 ^ 32

/-- A certificate looks like one of the genesis if its id and round are those of a
default header and its origin is an authority, whatever its parents and votes. -/
lemma any_genesis_eq : (cfg.genesis.any fun g => g.eq c) = true ↔
    c.header.id = 0 ∧ c.round = 0 ∧ c.origin ∈ cfg.committee.members := by
  simp only [List.any_eq_true, genesis, List.mem_map, exists_exists_and_eq_and,
    CertifiedHeader.eq, Bool.and_eq_true, beq_iff_eq, Committee.members, List.mem_toFinset]
  constructor
  · rintro ⟨name, hname, ⟨hid, hround⟩, horigin⟩
    exact ⟨hid.symm, hround.symm, horigin ▸ hname⟩
  · rintro ⟨hid, hround, horigin⟩
    exact ⟨c.origin, horigin, ⟨hid.symm, hround.symm⟩, rfl⟩

/-- **What passes `Certificate::verify`.** -/
theorem verifyCertificate_eq_ok : cfg.verifyCertificate c = .ok () ↔
    (c.header.id = 0 ∧ c.round = 0 ∧ c.origin ∈ cfg.committee.members) ∨
      cfg.verifyHeader c.header = .ok () ∧ HasQuorum cfg c := by
  rw [verifyCertificate]
  split
  · rename_i hgenesis
    exact ⟨fun _ => Or.inl (any_genesis_eq.mp hgenesis), fun _ => rfl⟩
  · rename_i hgenesis
    rw [any_genesis_eq] at hgenesis
    simp only [hgenesis, false_or]
    cases hheader : cfg.verifyHeader c.header with
    | error e => simp
    | ok _ =>
        cases hvotes : cfg.checkVotes c.votes [] 0 with
        | error e =>
            simp only [reduceCtorEq, true_and, false_iff]
            intro hquorum
            have hok := (checkVotes_eq_ok (Nat.two_pow_pos 32)).mpr
              ⟨hquorum.nodup, fun _ _ => List.not_mem_nil, hquorum.stake, rfl⟩
            rw [hok] at hvotes
            cases hvotes
        | ok weight =>
            obtain ⟨hnodup, -, hstake, hweight⟩ := (checkVotes_eq_ok (by decide)).mp hvotes
            rw [Nat.zero_add] at hweight
            -- The weight is summed in `u32`: passing the check bounds the wrapped sum from below.
            have hle := Nat.mod_le (c.votes.map fun vote => cfg.committee.stake vote.1).sum (2 ^ 32)
            by_cases hless : weight < cfg.committee.quorumThreshold
            · simp only [if_pos hless, reduceCtorEq, true_and, false_iff]
              intro hquorum
              have hwrapped := hquorum.wrapped
              omega
            · by_cases hverify : (c.votes.all fun vote =>
                  cfg.crypto.verify vote.2 (cfg.certificateDigest c) vote.1) = true
              · simp only [if_neg hless, if_pos hverify, true_and, true_iff]
                exact ⟨⟨hnodup, hstake, by omega, fun vote hvote =>
                  List.all_eq_true.mp hverify vote hvote⟩, by omega⟩
              · simp only [if_neg hless, if_neg hverify, reduceCtorEq, true_and, false_iff]
                exact fun hquorum => hverify (List.all_eq_true.mpr hquorum.verify)

/-- Above round zero, a certificate that is accepted has a header that is accepted
and a quorum. -/
lemma verifyCertificate_of_pos (hround : 1 ≤ c.round) (h : cfg.verifyCertificate c = .ok ()) :
    cfg.verifyHeader c.header = .ok () ∧ HasQuorum cfg c := by
  rcases verifyCertificate_eq_ok.mp h with ⟨-, hzero, -⟩ | hok
  · omega
  · exact hok

lemma certificateDigest_inj (h : cfg.certificateDigest c = cfg.certificateDigest c') :
    c.header.id = c'.header.id ∧ c.round = c'.round ∧ c.origin = c'.origin :=
  cfg.crypto.voteHash_inj _ _ _ _ _ _ h

/-- **No collisions among the headers of a set.** Headers with one digest have the same
contents, and none has the digest of a vote for one of them, for a header of the
genesis or for the one that a core starts with. -/
structure CollisionFree (cfg : PrimaryConfig) (pool : Set Header) : Prop where
  header : ∀ h ∈ pool, ∀ h' ∈ pool, cfg.headerDigest h = cfg.headerDigest h' →
    h.author = h'.author ∧ h.round = h'.round ∧ h.payload = h'.payload ∧ h.parents = h'.parents
  vote : ∀ h ∈ pool, ∀ h',
    h' ∈ pool ∨ h' ∈ cfg.genesis.map CertifiedHeader.header ∨ h' = Header.default →
      cfg.headerDigest h ≠ cfg.crypto.voteHash h'.id h'.round h'.author

lemma CollisionFree.certificateDigest_ne {pool : Set Header} (hfree : cfg.CollisionFree pool)
    (hh : h ∈ pool) (hc : c.header ∈ pool ∨ c ∈ cfg.genesis) :
    cfg.certificateDigest c ≠ cfg.headerDigest h :=
  fun heq => hfree.vote h hh c.header
    (hc.imp_right fun hmem => Or.inl (List.mem_map_of_mem hmem)) heq.symm

/-- With digests that are codes there are no collisions at all. -/
lemma collisionFree_coded (hcoded : cfg.crypto = Crypto.coded) : cfg.CollisionFree Set.univ where
  header h _ h' _ heq := by
    rw [headerDigest, headerDigest, hcoded] at heq
    exact Crypto.codedHeader_inj _ _ _ _ _ _ _ _ heq
  vote h _ h' _ := by
    rw [headerDigest, hcoded]
    exact Crypto.codedHeader_ne_codedVote _ _ _ _ _ _ _

end PrimaryConfig

end StablecoinSystem
