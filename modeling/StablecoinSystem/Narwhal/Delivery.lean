import Mathlib.Data.Nat.Pairing
import StablecoinSystem.Narwhal.Chain
import StablecoinSystem.Narwhal.Stake

/-!
What replicas are given: dags of certificates, and the orders in which they are
delivered.

* `Dag`: at most one certificate for each origin and round, whose parents are a
  quorum of the round before;
* `Dag.Fits`: a dag that makes no sum overflow;
* `Delivery`: an order in which each certificate comes once, after its parents;
* `Dag.eq_of_digest_eq`: in a dag, a digest stands for one certificate;
* `Dag.Fits.support_mono`: what is delivered of a dag gives a leader no more support than
  the dag, if no sum of stakes overflows;
* `Delivery.run_induction`: the rule for invariants of a run that is given a
  delivery.
-/

namespace StablecoinSystem

/-- At most one certificate for each origin and round. -/
def Unequivocal (certificates : List Certificate) : Prop :=
  ∀ c ∈ certificates, ∀ c' ∈ certificates, c.origin = c'.origin → c.round = c'.round → c = c'

instance (certificates : List Certificate) : Decidable (Unequivocal certificates) :=
  inferInstanceAs (Decidable (∀ c ∈ certificates, _))

namespace MP3Consensus

variable (con : MP3Consensus)

/-- The parents of a certificate are certificates of the round before, of the
genesis or among the given. -/
def HasParents (certificates : List Certificate) (c : Certificate) : Prop :=
  ∀ d ∈ c.parents, ∃ p ∈ con.genesis ++ certificates, con.digest p = d ∧ p.round + 1 = c.round

instance (certificates : List Certificate) (c : Certificate) :
    Decidable (con.HasParents certificates c) :=
  inferInstanceAs (Decidable (∀ d ∈ c.parents, _))

/-- Each certificate comes after its parents. -/
def AfterParents (order : List Certificate) : Prop := ForallSplit con.HasParents order

instance (order : List Certificate) : Decidable (con.AfterParents order) :=
  inferInstanceAs (Decidable (ForallSplit _ _))

/-- The stake of the parents of a certificate. -/
def parentStake (certificates : List Certificate) (c : Certificate) : ℕ :=
  (((con.genesis ++ certificates).filter fun p => con.digest p ∈ c.parents).map fun p =>
    con.committee.stake p.origin).sum

/-- A dag of certificates above the genesis. -/
structure Dag where
  certificates : List Certificate
  unequivocal : Unequivocal certificates
  rounds : ∀ c ∈ certificates, 1 ≤ c.round
  parents : ∀ c ∈ certificates, con.HasParents certificates c
  quorum : ∀ c ∈ certificates,
    con.committee.quorumThreshold ≤ con.parentStake certificates c

variable {con}

/-- The dag has no repetitions, and neither the stakes of its authorities nor the sums
of its rounds with the depth of the garbage collector overflow. -/
structure Dag.Fits (dag : Dag con) : Prop where
  nodup : dag.certificates.Nodup
  stakes : con.committee.Fits
  depth : ∀ c ∈ con.genesis ++ dag.certificates, c.round + con.gcDepth < 2 ^ 64

instance (dag : Dag con) : Decidable dag.Fits :=
  decidable_of_iff (_ ∧ _ ∧ _) ⟨fun h => ⟨h.1, h.2.1, h.2.2⟩, fun h => ⟨h.1, h.2, h.3⟩⟩

/-- An order in which certificates of a dag are delivered: each at most once,
and after its parents. -/
structure Delivery (dag : Dag con) where
  order : List Certificate
  nodup : order.Nodup
  subset : ∀ c ∈ order, c ∈ dag.certificates
  afterParents : con.AfterParents order

/-- What has been delivered so far of a dag. -/
structure Delivered (dag : Dag con) (delivered : List Certificate) : Prop where
  subset : ∀ c ∈ delivered, c ∈ dag.certificates
  afterParents : con.AfterParents delivered

lemma digest_inj {c c' : Certificate} (h : con.digest c = con.digest c') :
    c.id = c'.id ∧ c.round = c'.round ∧ c.origin = c'.origin :=
  con.collisionFree _ _ _ _ _ _ h

/-- Certificates of the genesis are told apart by their origins. -/
lemma eq_of_mem_genesis {c c' : Certificate} (hc : c ∈ con.genesis) (hc' : c' ∈ con.genesis)
    (horigin : c.origin = c'.origin) : c = c' := by
  obtain ⟨name, -, rfl⟩ := List.mem_map.mp hc
  obtain ⟨name', -, rfl⟩ := List.mem_map.mp hc'
  simp only at horigin
  rw [horigin]

namespace Dag

variable {dag : Dag con} {c c' : Certificate} {delivered : List Certificate}

/-- The genesis and the dag together are unequivocal. -/
lemma unequivocal_append (dag : Dag con) : Unequivocal (con.genesis ++ dag.certificates) := by
  intro c hc c' hc' horigin hround
  rcases List.mem_append.mp hc with hc | hc <;> rcases List.mem_append.mp hc' with hc' | hc'
  · exact eq_of_mem_genesis hc hc' horigin
  · have hzero := Certificate.round_of_mem_genesis hc
    have hpos := dag.rounds c' hc'
    omega
  · have hzero := Certificate.round_of_mem_genesis hc'
    have hpos := dag.rounds c hc
    omega
  · exact dag.unequivocal c hc c' hc' horigin hround

/-- A digest stands for one certificate of the dag. -/
lemma eq_of_digest_eq (hc : c ∈ con.genesis ++ dag.certificates)
    (hc' : c' ∈ con.genesis ++ dag.certificates) (h : con.digest c = con.digest c') : c = c' := by
  obtain ⟨-, hround, horigin⟩ := digest_inj h
  exact dag.unequivocal_append c hc c' hc' horigin hround

/-- A certificate of a dag has a parent. -/
lemma exists_parent (hc : c ∈ dag.certificates) :
    ∃ p ∈ con.genesis ++ dag.certificates, con.digest p ∈ c.parents := by
  have hquorum := dag.quorum c hc
  by_contra hnone
  push Not at hnone
  have hempty : (con.genesis ++ dag.certificates).filter
      (fun p => decide (con.digest p ∈ c.parents)) = [] :=
    List.filter_eq_nil_iff.mpr fun p hp => by simpa using hnone p hp
  rw [parentStake, hempty, List.map_nil, List.sum_nil, Committee.quorumThreshold] at hquorum
  omega

/-- `a` is a parent of `c` above the genesis. -/
def Parent (dag : Dag con) (c a : Certificate) : Prop :=
  a ∈ dag.certificates ∧ con.digest a ∈ c.parents

instance (dag : Dag con) (c a : Certificate) : Decidable (dag.Parent c a) :=
  inferInstanceAs (Decidable (_ ∧ _))

end Dag

namespace Delivered

variable {dag : Dag con} {c c' : Certificate} {delivered more : List Certificate}

lemma of_append (hd : Delivered dag (delivered ++ more)) : Delivered dag delivered :=
  ⟨fun c hc => hd.subset c (List.mem_append_left _ hc), ForallSplit.of_append hd.afterParents⟩

lemma mem_dag (hd : Delivered dag delivered) (hc : c ∈ con.genesis ++ delivered) :
    c ∈ con.genesis ++ dag.certificates := by
  rcases List.mem_append.mp hc with hc | hc
  · exact List.mem_append_left _ hc
  · exact List.mem_append_right _ (hd.subset c hc)

/-- A certificate whose parents are delivered has them all: what stands for a
digest in the dag is what was delivered for it. -/
lemma mem_of_hasParents (hd : Delivered dag delivered) (h : con.HasParents delivered c)
    (hp : c' ∈ con.genesis ++ dag.certificates) (hparent : con.digest c' ∈ c.parents) :
    c' ∈ con.genesis ++ delivered ∧ c'.round + 1 = c.round := by
  obtain ⟨p, hmem, hdigest, hround⟩ := h _ hparent
  rw [← dag.eq_of_digest_eq (hd.mem_dag hmem) hp hdigest]
  exact ⟨hmem, hround⟩

/-- What has been delivered is closed under parents. -/
lemma parent_mem (hd : Delivered dag delivered) (hc : c ∈ con.genesis ++ delivered)
    (hp : c' ∈ con.genesis ++ dag.certificates) (hparent : con.digest c' ∈ c.parents) :
    c' ∈ con.genesis ++ delivered ∧ c'.round + 1 = c.round := by
  rcases List.mem_append.mp hc with hc | hc
  · obtain ⟨name, -, rfl⟩ := List.mem_map.mp hc
    cases hparent
  · obtain ⟨pre, post, rfl⟩ := List.append_of_mem hc
    obtain ⟨hmem, hround⟩ := hd.of_append.mem_of_hasParents (hd.afterParents pre c post rfl) hp
      hparent
    refine ⟨?_, hround⟩
    rcases List.mem_append.mp hmem with hmem | hmem
    · exact List.mem_append_left _ hmem
    · exact List.mem_append_right _ (List.mem_append_left _ hmem)

end Delivered

/-- The rule for invariants of a run that is given a delivery: at any time, what
has been delivered is part of the dag and closed under parents. -/
theorem Delivery.run_induction {dag : Dag con} (d : Delivery dag)
    {I : List Certificate → Replica → Prop} {C : Replica → Certificate → Prop}
    (hstart : I [] con.start)
    (hignore : ∀ pre c r, r.halted = true → I pre r → I (pre ++ [c]) r)
    (hinsert : ∀ pre c r, r.halted = false → Delivered dag (pre ++ [c]) → I pre r → C r c →
      I (pre ++ [c]) (r.insert c))
    (hprepare : ∀ pre r block, I pre r → I pre (r.prepare block))
    (hcommit : ∀ pre r block rest s sequence, r.halted = false → Chained con pre r →
      Delivered dag pre → I pre r → r.state.preparedChain = block :: rest →
      con.commitBlock { r.state with preparedChain := rest } block = some (s, sequence) →
      I pre (r.commit s sequence block))
    (hhalt : ∀ pre r, I pre r → I pre r.halt)
    (hC : ForallSplit (fun pre c => C (con.run pre) c) d.order) : I d.order (con.run d.order) := by
  refine (run_induction_of (I := fun pre r => Delivered dag pre → I pre r) (fun _ => hstart)
    ?_ ?_ ?_ ?_ ?_ hC).2 ⟨d.subset, d.afterParents⟩
  · exact fun pre c r hhalted hI hd => hignore pre c r hhalted (hI hd.of_append)
  · exact fun pre c r hrunning _ hI hc hd => hinsert pre c r hrunning hd (hI hd.of_append) hc
  · exact fun pre round r block _ hI _ hd => hprepare pre r block (hI hd)
  · exact fun pre r block rest s sequence hrunning hr hI hchain hblock hd =>
      hcommit pre r block rest s sequence hrunning hr hd (hI hd) hchain hblock
  · exact fun pre r hI hd => hhalt pre r (hI hd)

/-! ### Support -/

variable {leader : Certificate} {certificates : List Certificate} {round : ℕ}

/-- The stakes behind a leader are those of different authorities. -/
lemma supportStake_le (con : MP3Consensus)
    (hslots : certificates.Pairwise fun a b => ¬(a.round = b.round ∧ a.origin = b.origin))
    (round : ℕ) (leader : Certificate) :
    con.supportStake round leader certificates ≤ con.committee.totalStake := by
  have horigins : (((atRound round certificates).filter fun x =>
      con.digest leader ∈ x.parents).map Certificate.origin).Nodup := by
    refine List.Pairwise.map _ (fun a b (h : a.origin ≠ b.origin) => h) ?_
    refine List.Pairwise.imp_of_mem ?_ ((hslots.filter _).filter _)
    intro a b ha hb hne horigin
    have hround := (mem_atRound.mp (List.mem_of_mem_filter ha)).2
    have hround' := (mem_atRound.mp (List.mem_of_mem_filter hb)).2
    exact hne ⟨hround.trans hround'.symm, horigin⟩
  have hsum := con.committee.sum_map_stake_le horigins
  rwa [List.map_map] at hsum

namespace Dag

variable {dag : Dag con}

/-- The genesis and a dag without repetitions. -/
lemma nodup_append (dag : Dag con) (hdag : dag.certificates.Nodup) :
    (con.genesis ++ dag.certificates).Nodup := by
  have hkeys : con.committee.keys.Nodup := Committee.nodup_keys
  refine List.Nodup.append ?_ hdag fun c hgenesis hc => ?_
  · exact hkeys.map fun _ _ h => congrArg Certificate.origin h
  · have hzero := Certificate.round_of_mem_genesis hgenesis
    have hpos := dag.rounds c hc
    omega

/-- The support of a leader in the whole dag is a `u32`. -/
lemma Fits.support_whole (h : dag.Fits) (round : ℕ) (leader : Certificate) :
    con.support round leader (con.genesis ++ dag.certificates) =
      con.supportStake round leader (con.genesis ++ dag.certificates) := by
  have hslots : (con.genesis ++ dag.certificates).Pairwise fun a b =>
      ¬(a.round = b.round ∧ a.origin = b.origin) := by
    refine (dag.nodup_append h.nodup).imp_of_mem ?_
    intro a b ha hb hne hslot
    exact hne (dag.unequivocal_append a ha b hb hslot.2 hslot.1)
  have hle := con.supportStake_le hslots round leader
  have hstakes : 2 * con.committee.totalStake < 2 ^ 32 := h.stakes
  exact Nat.mod_eq_of_lt (by omega)

/-- A dag with more certificates gives a leader more support. -/
lemma Fits.support_mono (h : dag.Fits) (hnodup : certificates.Nodup)
    (hsub : ∀ c ∈ certificates, c ∈ con.genesis ++ dag.certificates) :
    con.support round leader certificates ≤
      con.support round leader (con.genesis ++ dag.certificates) := by
  have hsubset : (atRound round certificates).filter (fun x => con.digest leader ∈ x.parents) ⊆
      (atRound round (con.genesis ++ dag.certificates)).filter fun x =>
        con.digest leader ∈ x.parents := by
    intro x hx
    obtain ⟨hx, hparent⟩ := List.mem_filter.mp hx
    obtain ⟨hmem, hround⟩ := mem_atRound.mp hx
    exact List.mem_filter.mpr ⟨mem_atRound.mpr ⟨hsub x hmem, hround⟩, hparent⟩
  have hfilter : ((atRound round certificates).filter
      fun x => con.digest leader ∈ x.parents).Nodup := (hnodup.filter _).filter _
  rw [h.support_whole]
  exact le_trans (Nat.mod_le _ _) (sum_map_le_of_subset hfilter hsubset _)

end Dag

/-! ### A committee of two -/

lemma pair_collisionFree (id round origin id' round' origin' : ℕ)
    (h : Nat.pair id (Nat.pair round origin) = Nat.pair id' (Nat.pair round' origin')) :
    id = id' ∧ round = round' ∧ origin = origin' := by
  simpa using h

/-- Two authorities, of stakes one and three: the second is a quorum. -/
def twoAuthorities : MP3Consensus where
  committee := ⟨[(0, 1), (1, 3)], by decide⟩
  gcDepth := 50
  kSlots := 1
  overflowChecks := false
  hash := fun id round origin => Nat.pair id (Nat.pair round origin)
  collisionFree := pair_collisionFree

/-- The certificate of an authority in a round, given the origins of its
parents. -/
def certify (round origin : ℕ) (parents : List ℕ)
    (hsorted : (parents.map fun p => Nat.pair 0 (Nat.pair (round - 1) p)).Pairwise (· < ·)) :
    Certificate where
  id := 0
  round := round
  origin := origin
  parents := parents.map fun p => Nat.pair 0 (Nat.pair (round - 1) p)
  sorted := hsorted

lemma sorted_none (round : ℕ) :
    (([] : List ℕ).map fun p => Nat.pair 0 (Nat.pair (round - 1) p)).Pairwise (· < ·) :=
  .nil

lemma sorted_single (name round : ℕ) :
    ([name].map fun p => Nat.pair 0 (Nat.pair (round - 1) p)).Pairwise (· < ·) :=
  List.pairwise_singleton _ _

lemma sorted_both (round : ℕ) :
    ([0, 1].map fun p => Nat.pair 0 (Nat.pair (round - 1) p)).Pairwise (· < ·) :=
  List.pairwise_pair.mpr (Nat.pair_lt_pair_right _ (Nat.pair_lt_pair_right _ Nat.zero_lt_one))

/-- A certificate without parents. -/
def certifyNone (round origin : ℕ) : Certificate := certify round origin [] (sorted_none round)

/-- A certificate whose parent is that of the first authority. -/
def certifyFirst (round origin : ℕ) : Certificate :=
  certify round origin [0] (sorted_single 0 round)

/-- A certificate whose parent is that of the second authority. -/
def certifySecond (round origin : ℕ) : Certificate :=
  certify round origin [1] (sorted_single 1 round)

/-- A certificate whose parents are those of both authorities. -/
def certifyBoth (round origin : ℕ) : Certificate :=
  certify round origin [0, 1] (sorted_both round)

end MP3Consensus

end StablecoinSystem
