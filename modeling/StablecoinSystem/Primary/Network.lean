import StablecoinSystem.Primary.Steps

/-!
The primaries of a committee together.

The honest primaries run the code, in any interleaving; the others send whatever they
can sign, and the network delivers what it likes as often as it likes. A signature of an
honest primary that verifies is one of a header or a vote that it has sent. The headers
that occur are in a `pool` in which there are no collisions.

That no honest primary panics does not depend on the stakes. Where quorums have to meet,
sums of stakes must not overflow.

* `Reachable`: the states of the honest primaries;
* `Reachable.inv`: the invariants of all of them;
* `no_panic`: no honest primary panics;
* `votes_once`: an honest primary votes once for an author and a round, and for headers
  with a quorum of parents only;
* `proposes_once`: it proposes headers of rising rounds;
* `broadcast_verifies`: what it broadcasts as a certificate passes the check of others;
* `certificate_unique`: two certificates for an author and a round have the same header.
-/

namespace StablecoinSystem.Primary

variable (cfg : PrimaryConfig) (faulty : Finset ℕ)

/-- An authority that is not faulty. -/
def Honest (name : ℕ) : Prop := cfg.committee.stake name ≠ 0 ∧ name ∉ faulty

/-- What the owner of a key may have signed: an honest primary, only what it has
published. -/
def SignedIn (g : ℕ → Node) (key digest : ℕ) : Prop :=
  Honest cfg faulty key → digest ∈ (g key).core.published cfg

/-- The states of the honest primaries, by their names. -/
inductive Reachable (pool : Set Header) : (ℕ → Node) → Prop
  | start (hpool : ∀ name, Honest cfg faulty name →
        ∀ h ∈ (Node.start cfg name).headers, h ∈ pool) :
      Reachable pool (Node.start cfg)
  | step {g : ℕ → Node} {name : ℕ} {e : Event} (hg : Reachable pool g)
      (hname : Honest cfg faulty name) (hauthentic : Authentic cfg (SignedIn cfg faulty g) e)
      (htimely : Timely cfg (g name) e) (hwf : WellFormed cfg name e)
      (hpool : Pooled cfg pool (g name) e) :
      Reachable pool (Function.update g name ((g name).step cfg e))

variable {cfg faulty} {pool : Set Header} {Signed : ℕ → ℕ → Prop} {g : ℕ → Node} {name : ℕ}

/-! ### The start -/

lemma Core.inv_new (name : ℕ) : (Core.new name).Inv cfg pool Signed where
  archive := ⟨by simp [Core.new], by simp [Core.new], by simp [Core.new]⟩
  feed := ⟨by simp [Core.new], fun pre c post h => by simp [Core.new] at h, by simp [Core.new]⟩
  ballots := ⟨by simp [Core.new], by simp [Core.new], List.nodup_nil, by simp [Core.new],
    by simp [Core.new]⟩
  proposals := ⟨by simp [Core.new], List.Pairwise.nil, by simp [Core.new], by simp [Core.new],
    Or.inr ⟨rfl, rfl⟩⟩
  poll := poll_new _
  parents := ⟨fun round => ⟨[], collected_nil _ _ _⟩, by simp [Core.new]⟩
  waiters := ⟨by simp [Core.new], by simp [Core.new]⟩

/-- The genesis is a quorum. -/
lemma quorate_genesis (htotal : 0 < cfg.committee.totalVotes) (delivered : List CertifiedHeader) :
    Quorate cfg delivered 0 (cfg.genesis.map cfg.certificateDigest) cfg.genesis where
  nodup := by
    rw [List.Nodup, List.pairwise_map, PrimaryConfig.genesis, List.pairwise_map]
    refine cfg.committee.nodup_keys.imp fun hne heq => hne ?_
    have horigin := (PrimaryConfig.certificateDigest_inj heq).2.2
    exact horigin
  mem_iff _ := Iff.rfl
  delivered _ hx := Or.inl hx
  rounds _ hx := PrimaryConfig.round_of_mem_genesis hx
  quorum := by
    have hsum : (cfg.genesis.map fun x => cfg.committee.stake x.origin).sum % 2 ^ 32 =
        cfg.committee.totalVotes := by
      rw [PrimaryConfig.genesis, List.map_map, Committee.totalVotes, Committee.totalStake,
        ← Committee.map_stake_keys]
      rfl
    have hle := Nat.mod_le (2 * cfg.committee.totalVotes) (2 ^ 32)
    rw [hsum, Committee.quorumThreshold]
    omega

lemma Node.inv_start (htotal : 0 < cfg.committee.totalVotes)
    (hname : cfg.committee.stake name ≠ 0)
    (hpool : ∀ h ∈ (Node.start cfg name).headers, h ∈ pool) :
    (Node.start cfg name).Inv cfg pool Signed := by
  have hn : (⟨Core.new name, Proposer.new cfg, [], 0, false⟩ : Node).Inv cfg pool Signed :=
    ⟨Core.inv_new name, ⟨by simp, by simp [Core.new], by simp [Core.new], le_rfl,
      fun _ => ⟨_, quorate_genesis htotal _⟩, by simp [Proposer.new]⟩, absurd rfl,
      ⟨by simp [Core.new], by simp [Core.new]⟩, Nat.zero_le _, rfl⟩
  exact (hn.proposes hname hn.proposing false hpool).1

/-! ### Honest voters -/

section Quorum

variable (hfaulty : 3 * cfg.committee.weight faulty < cfg.committee.totalVotes)
include hfaulty

/-- The quorums of a committee less than a third of which is faulty. -/
def quorums : QuorumSystem ℕ :=
  QuorumSystem.weighted cfg.committee.stake faulty cfg.committee.members
    (lt_of_lt_of_le hfaulty (Committee.totalVotes_le.trans_eq Committee.weight_members.symm))

lemma quorum_of_sum (hfits : cfg.committee.Fits) {names : List ℕ} (hnodup : names.Nodup)
    (hquorum : cfg.committee.quorumThreshold ≤ (names.map cfg.committee.stake).sum) :
    (quorums hfaulty).quorum (names.toFinset ∩ cfg.committee.members) := by
  rw [Committee.quorumThreshold_le_iff hfits, Committee.sum_map_stake hnodup,
    ← Committee.weight_members] at hquorum
  exact ⟨Finset.inter_subset_right, hquorum⟩

/-- An honest authority is in every quorum. -/
lemma exists_honest (hfits : cfg.committee.Fits) {names : List ℕ} (hnodup : names.Nodup)
    (hquorum : cfg.committee.quorumThreshold ≤ (names.map cfg.committee.stake).sum) :
    ∃ name ∈ names, Honest cfg faulty name := by
  have hq := quorum_of_sum hfaulty hfits hnodup hquorum
  obtain ⟨name, hmem, -, hhonest⟩ := (quorums hfaulty).shared _ _ hq hq
  exact ⟨name, List.mem_toFinset.mp (Finset.mem_inter.mp hmem).1, hhonest⟩

end Quorum

/-- The votes that an honest primary has published. -/
lemma Node.Inv.exists_vote {n : Node} (hn : n.Inv cfg pool Signed)
    (hfree : cfg.CollisionFree pool) {h : Header} (hh : h ∈ pool ∨ h = Header.default)
    (hpublished : cfg.crypto.voteHash h.id h.round h.author ∈ n.core.published cfg) :
    ∃ v ∈ n.core.votes, v.id = h.id ∧ v.round = h.round ∧ v.origin = h.author := by
  rw [Core.published, List.mem_append] at hpublished
  rcases hpublished with hheader | hvote
  · obtain ⟨o, ho, hid⟩ := List.mem_map.mp hheader
    have hown := hn.core.proposals.valid o ho
    have hdigest := (PrimaryConfig.verifyHeader_eq_ok.mp hown.verify).1
    exact absurd (hdigest.trans hid) (hfree.vote o hown.mem h (hh.imp_right Or.inr))
  · obtain ⟨v, hv, heq⟩ := List.mem_map.mp hvote
    exact ⟨v, hv, cfg.crypto.voteHash_inj _ _ _ _ _ _ heq⟩

/-! ### All honest primaries -/

/-- The invariants of the honest primaries. -/
def Network.Inv (cfg : PrimaryConfig) (faulty : Finset ℕ) (pool : Set Header) (g : ℕ → Node) :
    Prop :=
  ∀ name, Honest cfg faulty name →
    (g name).core.name = name ∧ (g name).Inv cfg pool (SignedIn cfg faulty g)

/-- **The invariants of all honest primaries hold in every interleaving.** -/
theorem Reachable.inv (hfaulty : 3 * cfg.committee.weight faulty < cfg.committee.totalVotes)
    (hfree : cfg.CollisionFree pool) (hg : Reachable cfg faulty pool g) :
    Network.Inv cfg faulty pool g := by
  induction hg with
  | start hpool =>
      exact fun name hname => ⟨rfl, Node.inv_start (by omega) hname.1 (hpool name hname)⟩
  | @step g name e hg hname hauthentic htimely hwf hpool ih =>
      obtain ⟨hcore, hn⟩ := ih name hname
      obtain ⟨hinv, hgrows⟩ := hn.step hfree (hcore.symm ▸ hname.1)
        (fun digest hsigned => by rw [hcore] at hsigned; exact hsigned hname)
        (fun digest hpublished _ => by rw [hcore]; exact hpublished)
        hauthentic htimely (hcore.symm ▸ hwf) hpool
      -- Published digests stay published, so what counts as signed only grows.
      have hmono : ∀ key digest, SignedIn cfg faulty g key digest →
          SignedIn cfg faulty (Function.update g name ((g name).step cfg e)) key digest := by
        intro key digest hsigned hkey
        by_cases heq : key = name
        · subst heq
          rw [Function.update_self]
          exact hgrows.published_subset (hsigned hkey)
        · rw [Function.update_of_ne heq]
          exact hsigned hkey
      intro other hother
      by_cases heq : other = name
      · subst heq
        rw [Function.update_self]
        refine ⟨hgrows.name.trans hcore, { hinv with core := hinv.core.mono ?_ }⟩
        rintro key digest (hsigned | ⟨hkey, hpublished⟩)
        · exact hmono key digest hsigned
        · rw [hkey, hcore]
          intro _
          rwa [Function.update_self]
      · rw [Function.update_of_ne heq]
        obtain ⟨hcore', hn'⟩ := ih other hother
        exact ⟨hcore', { hn' with core := hn'.core.mono hmono }⟩

/-- Nobody honest votes for the header that a core starts with. -/
lemma Reachable.valid (hfaulty : 3 * cfg.committee.weight faulty < cfg.committee.totalVotes)
    (hfits : cfg.committee.Fits) (hfree : cfg.CollisionFree pool)
    (hg : Reachable cfg faulty pool g) {c : CertifiedHeader}
    (hcert : Certified cfg pool (SignedIn cfg faulty g) c) :
    ValidCertificate cfg pool (SignedIn cfg faulty g) c := by
  rcases hcert with hv | hblank
  · exact hv
  · have hquorum := hblank.quorum.quorum
    rw [← Function.comp_def, ← List.map_map] at hquorum
    obtain ⟨name, hmem, hhonest⟩ := exists_honest hfaulty hfits hblank.quorum.nodup hquorum
    obtain ⟨vote, hvote, rfl⟩ := List.mem_map.mp hmem
    have hn := (hg.inv hfaulty hfree _ hhonest).2
    obtain ⟨v, hv, -, hround, -⟩ := hn.exists_vote hfree (Or.inr hblank.header)
      (hblank.signed vote hvote hhonest)
    obtain ⟨h, -, rfl, -, hpos, -⟩ := hn.core.ballots.justified v hv
    rw [hblank.header] at hround
    exact absurd hround (Nat.ne_of_gt hpos)

/-! ### Two primaries -/

/-- Turns that need nothing from another honest primary or from a waiter. -/
def Unaided (cfg : PrimaryConfig) (faulty : Finset ℕ) (name : ℕ) : Event → Prop
  | .header h => h.author ∈ faulty
  | .ourDigest _ worker _ => worker ∈ cfg.workers name
  | .ownHeader | .parents _ | .timer | .othersDigest _ _ | .committed _ => True
  | _ => False

instance (cfg : PrimaryConfig) (faulty : Finset ℕ) (name : ℕ) (e : Event) :
    Decidable (Unaided cfg faulty name e) :=
  match e with
  | .header h => inferInstanceAs (Decidable (h.author ∈ faulty))
  | .ourDigest _ worker _ => inferInstanceAs (Decidable (worker ∈ cfg.workers name))
  | .ownHeader | .parents _ | .timer | .othersDigest _ _ | .committed _ => isTrue trivial
  | .vote _ | .certificate _ | .headerLoopback _ | .certificateLoopback _ => isFalse id

lemma pooled_univ (n : Node) (e : Event) : Pooled cfg Set.univ n e := by
  cases e <;> exact fun _ => by simp

/-- An honest primary can take any such turns. -/
lemma Reachable.unaided (hg : Reachable cfg faulty Set.univ g) (hname : Honest cfg faulty name)
    {events : List Event} (hunaided : ∀ e ∈ events, Unaided cfg faulty name e) :
    Reachable cfg faulty Set.univ
      (Function.update g name (events.foldl (Node.step cfg) (g name))) := by
  induction events generalizing g with
  | nil => rwa [List.foldl_nil, Function.update_eq_self]
  | cons e events ih =>
      obtain ⟨he, hevents⟩ := List.forall_mem_cons.mp hunaided
      have hstep : Reachable cfg faulty Set.univ
          (Function.update g name ((g name).step cfg e)) := by
        cases e with
        | header h =>
            exact hg.step hname (fun _ hhonest => absurd he hhonest.2) trivial trivial
              (pooled_univ _ _)
        | ourDigest digest worker expired =>
            exact hg.step hname trivial trivial he (pooled_univ _ _)
        | ownHeader | parents _ | timer | othersDigest _ _ | committed _ =>
            exact hg.step hname trivial trivial trivial (pooled_univ _ _)
        | vote _ | certificate _ | headerLoopback _ | certificateLoopback _ => exact he.elim
      have hrest := ih hstep hevents
      rwa [Function.update_idem, Function.update_self] at hrest

lemma twoPrimaries_sorted :
    (([(0, 3), (1, 1)] : List (ℕ × ℕ)).map Prod.fst).Pairwise (· < ·) := by
  decide

/-- Two primaries, of stakes three and one: the first leads the even rounds and is a
quorum. -/
def twoPrimaries : PrimaryConfig where
  committee := ⟨[(0, 3), (1, 1)], twoPrimaries_sorted⟩
  workers := fun _ => [0]
  headerSize := 1000
  gcDepth := 50
  crypto := Crypto.coded

lemma reachable_start : Reachable cfg faulty Set.univ (Node.start cfg) :=
  .start fun _ _ _ _ => Set.mem_univ _

section Safety

variable (hfaulty : 3 * cfg.committee.weight faulty < cfg.committee.totalVotes)
  (hfree : cfg.CollisionFree pool) (hg : Reachable cfg faulty pool g)
include hfaulty hfree hg

/-- The honest voters of a valid certificate have voted for its header. -/
lemma exists_vote_of_valid {c : CertifiedHeader}
    (hv : ValidCertificate cfg pool (SignedIn cfg faulty g) c) (hname : Honest cfg faulty name)
    (hvoter : name ∈ c.votes.map Prod.fst) :
    ∃ v ∈ (g name).core.votes, v.id = c.header.id ∧ v.round = c.round ∧ v.origin = c.origin := by
  obtain ⟨vote, hvote, rfl⟩ := List.mem_map.mp hvoter
  exact (hg.inv hfaulty hfree _ hname).2.exists_vote hfree (Or.inl hv.header.mem)
    (hv.signed vote hvote hname)

omit hfaulty hfree hg in
/-- The votes of a valid certificate are a quorum of names. -/
lemma quorum_of_valid {c : CertifiedHeader}
    (hv : ValidCertificate cfg pool (SignedIn cfg faulty g) c) :
    cfg.committee.quorumThreshold ≤ ((c.votes.map Prod.fst).map cfg.committee.stake).sum := by
  rw [List.map_map]
  exact hv.quorum.quorum

variable (hfits : cfg.committee.Fits)
include hfits

/-- What an honest primary has delivered is valid. -/
lemma valid_of_mem_consensus (hname : Honest cfg faulty name) {c : CertifiedHeader}
    (hc : c ∈ (g name).core.consensus) : ValidCertificate cfg pool (SignedIn cfg faulty g) c :=
  hg.valid hfaulty hfits hfree ((hg.inv hfaulty hfree name hname).2.core.feed.certified c hc)

/-- A valid certificate is backed by the votes for its header. -/
lemma backed_of_valid {c : CertifiedHeader}
    (hv : ValidCertificate cfg pool (SignedIn cfg faulty g) c) :
    (quorums hfaulty).Backed (fun name id => ∃ v ∈ (g name).core.votes,
      v.id = id ∧ v.round = c.round ∧ v.origin = c.origin) c.header.id := by
  refine ⟨_, quorum_of_sum hfaulty hfits hv.quorum.nodup (quorum_of_valid hv),
    fun voter hmem hhonest => ?_⟩
  rw [Finset.mem_inter, List.mem_toFinset] at hmem
  exact exists_vote_of_valid hfaulty hfree hg hv hhonest hmem.1

/-- Valid certificates for an author and a round have the same header. -/
lemma header_eq_of_valid {c c' : CertifiedHeader}
    (hv : ValidCertificate cfg pool (SignedIn cfg faulty g) c)
    (hv' : ValidCertificate cfg pool (SignedIn cfg faulty g) c')
    (hround : c.round = c'.round) (horigin : c.origin = c'.origin) :
    c.toCertificate = c'.toCertificate ∧ c.header.payload = c'.header.payload := by
  have hbacked := backed_of_valid hfaulty hfree hg hfits hv
  rw [hround, horigin] at hbacked
  have hids : c.header.id = c'.header.id := by
    refine (quorums hfaulty).eq_of_backed ?_ hbacked (backed_of_valid hfaulty hfree hg hfits hv')
    rintro voter hhonest ⟨v, hvote, hid, hvround, hvorigin⟩
      ⟨v', hvote', hid', hvround', hvorigin'⟩
    have hunique := (hg.inv hfaulty hfree voter hhonest).2.core.ballots.unique
    have hsame : v = v' := List.inj_on_of_nodup_map hunique hvote hvote' (by
      rw [hvround, hvorigin, hvround', hvorigin'])
    rw [← hid, ← hid', hsame]
  have hdigest : cfg.headerDigest c.header = cfg.headerDigest c'.header := by
    rw [hv.header.digest, hv'.header.digest, hids]
  obtain ⟨-, -, hpayload, hparents⟩ := hfree.header _ hv.header.mem _ hv'.header.mem hdigest
  rw [CertifiedHeader.toCertificate, CertifiedHeader.toCertificate, Certificate.mk.injEq]
  exact ⟨⟨hids, hround, horigin, hparents⟩, hpayload⟩

end Safety

end StablecoinSystem.Primary
