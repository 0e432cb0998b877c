import Mathlib.Logic.Function.Basic
import StablecoinSystem.ControlPlane.Engine
import StablecoinSystem.Support.Loop
import StablecoinSystem.Support.Quorum

/-!
Safety of the macro chain: do honest engines commit conflicting blocks?

Honest nodes vote for headers that `validate_macro_header` accepts, once for
each view and height, and process certificates in any order. A certificate has
a quorum of votes of distinct members, of which those of honest members have
been cast. Faulty members vote for anything, and whoever leads proposes
anything.

* `certified_unique`: in one view, a height has one certified header;
* `macro_safety`: honest engines commit the same header for a height if the headers
  that an honest node votes for at one height, in whatever views, name the same parent
  certificate;
* `conflicting_commits`: the lock does not make them do so.
-/

namespace StablecoinSystem.ControlPlane

/-- A committee, less than one third of it faulty, and the hash in use. -/
structure Protocol where
  committee : Committee
  byzantine : Finset NodeId
  byzantine_le : byzantine.card ≤ committee.maxFaults
  hash : List UInt8 → DigestBytes

/-- The engines, and the votes that honest nodes have cast. -/
structure Network where
  engines : NodeId → ConsensusEngine
  votes : List MacroVote

namespace Network

/-- A vote is cast. -/
def cast (net : Network) (v : MacroVote) : Network := { net with votes := net.votes ++ [v] }

/-- The engine of a node processes a certificate. -/
def process (net : Network) (hash : List UInt8 → DigestBytes) (node : NodeId) (qc : MacroQC)
    (slotQcs : List SlotQC) : Network :=
  let e := ((net.engines node).processMacroQc hash qc slotQcs).1
  { net with engines := Function.update net.engines node e }

end Network

/-- What an honest node does. -/
inductive Action where
  | vote (node : NodeId) (header : MacroHeader)
  | process (node : NodeId) (qc : MacroQC) (slotQcs : List SlotQC)

/-- The header that an action is about. -/
def Action.header : Action → MacroHeader
  | .vote _ header => header
  | .process _ qc _ => qc.header

/-- The certificate that an action processes. -/
def Action.certificate : Action → Option MacroQC
  | .vote _ _ => none
  | .process _ qc _ => some qc

namespace Protocol

variable (P : Protocol)

def Honest (node : NodeId) : Prop := node ∈ P.committee.nodeIds ∧ node ∉ P.byzantine

instance (node : NodeId) : Decidable (P.Honest node) := inferInstanceAs (Decidable (_ ∧ _))

/-- A certificate with a quorum of matching votes of distinct members. The votes
of those that are not faulty have been cast. -/
structure Certified (votes : List MacroVote) (qc : MacroQC) : Prop where
  verified : qc.verify P.committee.quorumThreshold = true
  distinct : (qc.votes.map MacroVote.voter).Nodup
  members : ∀ v ∈ qc.votes, v.voter ∈ P.committee.nodeIds
  unforged : ∀ v ∈ qc.votes, v.voter ∉ P.byzantine → v ∈ votes
  headed : qc.headerDigest = qc.header.digest

instance (votes : List MacroVote) (qc : MacroQC) : Decidable (P.Certified votes qc) :=
  decidable_of_iff (qc.verify P.committee.quorumThreshold = true ∧
      (qc.votes.map MacroVote.voter).Nodup ∧ (∀ v ∈ qc.votes, v.voter ∈ P.committee.nodeIds) ∧
      (∀ v ∈ qc.votes, v.voter ∉ P.byzantine → v ∈ votes) ∧ qc.headerDigest = qc.header.digest)
    ⟨fun ⟨h₁, h₂, h₃, h₄, h₅⟩ => ⟨h₁, h₂, h₃, h₄, h₅⟩,
      fun h => ⟨h.verified, h.distinct, h.members, h.unforged, h.headed⟩⟩

/-- The node has not voted in the view and height of the header. -/
def Unvoted (votes : List MacroVote) (node : NodeId) (header : MacroHeader) : Prop :=
  ∀ v ∈ votes, v.voter = node → ¬(v.view = header.view ∧ v.height = header.height)

instance (votes : List MacroVote) (node : NodeId) (header : MacroHeader) :
    Decidable (Unvoted votes node header) :=
  inferInstanceAs (Decidable (∀ v ∈ votes, _))

/-- One action, `none` if it is not one of an honest node. -/
def act (net : Network) : Action → Option Network
  | .vote node header =>
      if P.Honest node ∧ Unvoted net.votes node header ∧
          validateMacroHeader header P.committee (net.engines node).lockedQc = true then
        some (net.cast (voteOnHeader P.hash header node))
      else none
  | .process node qc slotQcs =>
      if P.Honest node ∧ P.Certified net.votes qc then
        some (net.process P.hash node qc slotQcs)
      else none

/-- The network before anything happens. -/
def start : Network := ⟨ConsensusEngine.new P.committee, []⟩

/-- The network after a sequence of actions. -/
def run (actions : List Action) : Option Network := actions.foldlM P.act P.start

variable {P}

/-- The rule for runs: what votes and certificates keep holds of every run. -/
theorem run_induction {I : List Action → Network → Prop} {actions : List Action} {net : Network}
    (hstart : I [] P.start)
    (hvote : ∀ pre net node header post, actions = pre ++ .vote node header :: post →
      P.run pre = some net → I pre net → P.Honest node → Unvoted net.votes node header →
      validateMacroHeader header P.committee (net.engines node).lockedQc = true →
      I (pre ++ [.vote node header]) (net.cast (voteOnHeader P.hash header node)))
    (hprocess : ∀ pre net node qc slotQcs, I pre net → P.Honest node →
      P.Certified net.votes qc → I (pre ++ [.process node qc slotQcs])
        (net.process P.hash node qc slotQcs))
    (hrun : P.run actions = some net) : I actions net := by
  refine (foldlM_induction (I := fun pre net => P.run pre = some net ∧ I pre net)
    ⟨rfl, hstart⟩ ?_ hrun).2
  rintro pre a post net net' hsplit ⟨hpre, hI⟩ hact
  refine ⟨?_, ?_⟩
  -- the run up to the action is carried along, since a vote is judged in its state
  · rw [run, List.foldlM_append]
    exact Option.bind_eq_some_iff.mpr ⟨net, hpre, foldlM_cons_eq_some.mpr ⟨net', hact, rfl⟩⟩
  · cases a with
    | vote node header =>
        rw [act] at hact
        split at hact
        · rename_i hguard
          cases hact
          exact hvote pre net node header post hsplit hpre hI hguard.1 hguard.2.1 hguard.2.2
        · cases hact
    | process node qc slotQcs =>
        rw [act] at hact
        split at hact
        · rename_i hguard
          cases hact
          exact hprocess pre net node qc slotQcs hI hguard.1 hguard.2
        · cases hact

/-! ### Certificates -/

/-- The quorums of the committee. -/
def quorums (P : Protocol) : QuorumSystem NodeId :=
  QuorumSystem.twoThirds P.committee.members P.byzantine
    (Committee.three_mul_lt_card_members P.byzantine_le)

namespace Certified

variable {votes votes' : List MacroVote} {qc qc' : MacroQC} {K : MacroVote → Prop}

lemma mono (h : P.Certified votes qc) (hsub : votes ⊆ votes') : P.Certified votes' qc :=
  ⟨h.verified, h.distinct, h.members, fun v hv hhonest => hsub (h.unforged v hv hhonest), h.headed⟩

/-- What is certified has been voted for by the honest members of a quorum. -/
lemma backed (h : P.Certified votes qc)
    (hK : ∀ v : MacroVote, v.view = qc.view → v.height = qc.height → K v) :
    P.quorums.Backed (fun node digest => ∃ v ∈ votes, v.voter = node ∧ v.headerDigest = digest ∧
      K v) qc.headerDigest := by
  obtain ⟨hlen, hmatch⟩ := MacroQC.verify_iff.mp h.verified
  refine ⟨(qc.votes.map MacroVote.voter).toFinset, Committee.quorum_of_voters h.distinct ?_ ?_, ?_⟩
  · exact List.forall_mem_map.mpr h.members
  · rwa [List.length_map]
  · intro node hnode hhonest
    obtain ⟨v, hv, rfl⟩ := List.mem_map.mp (List.mem_toFinset.mp hnode)
    obtain ⟨hdigest, hview, hheight⟩ := hmatch v hv
    exact ⟨v, h.unforged v hv hhonest, rfl, hdigest, hK v hview hheight⟩

/-- If no node has cast two votes with property `K` for different headers, two
certificates whose votes have the property are for one header. -/
lemma headerDigest_eq (h : P.Certified votes qc) (h' : P.Certified votes qc')
    (honce : ∀ v ∈ votes, ∀ v' ∈ votes, v.voter = v'.voter → K v → K v' →
      v.headerDigest = v'.headerDigest)
    (hK : ∀ v : MacroVote, v.view = qc.view → v.height = qc.height → K v)
    (hK' : ∀ v : MacroVote, v.view = qc'.view → v.height = qc'.height → K v) :
    qc.header.digest = qc'.header.digest := by
  rw [← h.headed, ← h'.headed]
  refine P.quorums.eq_of_backed ?_ (h.backed hK) (h'.backed hK')
  rintro node - ⟨v, hv, hvoter, hdigest, hKv⟩ ⟨v', hv', hvoter', hdigest', hKv'⟩
  rw [← hdigest, ← hdigest']
  exact honce v hv v' hv' (hvoter.trans hvoter'.symm) hKv hKv'

end Certified

/-! ### Runs -/

variable {actions : List Action} {net : Network}

/-- What an engine holds has been received and is certified. A block that it has
committed is the parent of another certificate. -/
structure Sound (P : Protocol) (received : List MacroQC) (votes : List MacroVote)
    (e : ConsensusEngine) : Prop where
  chain : ∀ qc ∈ e.macroQcChain, qc ∈ received ∧ P.Certified votes qc
  committed : ∀ b ∈ e.committed, ∃ qc ∈ received, P.Certified votes qc ∧ b.height = qc.height ∧
    b.header = qc.header ∧ ∃ child ∈ received, P.Certified votes child ∧
      child.height = qc.height + 1 ∧ child.header.parentQc = some (qc.digest P.hash)

namespace Sound

variable {received received' : List MacroQC} {votes votes' : List MacroVote} {e : ConsensusEngine}

lemma mono (h : Sound P received votes e) (hreceived : received ⊆ received')
    (hvotes : votes ⊆ votes') : Sound P received' votes' e where
  chain := fun qc hqc => ⟨hreceived (h.chain qc hqc).1, (h.chain qc hqc).2.mono hvotes⟩
  committed := fun b hb => by
    obtain ⟨qc, hqc, hcertified, hheight, hheader, child, hchild, hcertified', hlink⟩ :=
      h.committed b hb
    exact ⟨qc, hreceived hqc, hcertified.mono hvotes, hheight, hheader, child, hreceived hchild,
      hcertified'.mono hvotes, hlink⟩

lemma processMacroQc (h : Sound P received votes e) {qc : MacroQC} (hqc : P.Certified votes qc)
    (slotQcs : List SlotQC) :
    Sound P (received ++ [qc]) votes (e.processMacroQc P.hash qc slotQcs).1 := by
  have hmono := h.mono (List.subset_append_left received [qc]) (List.Subset.refl votes)
  have hadd : ∀ qc' ∈ (e.addQc qc).macroQcChain, qc' ∈ received ++ [qc] ∧ P.Certified votes qc' :=
    List.forall_mem_append.mpr ⟨hmono.chain, List.forall_mem_singleton.mpr
      ⟨List.mem_append_right _ (List.mem_singleton_self qc), hqc⟩⟩
  rcases ConsensusEngine.processMacroQc_cases P.hash e qc slotQcs with
    ⟨-, heq⟩ | ⟨qcH2, qcH1, hcompletes, heq⟩
  · rw [heq]
    exact ⟨hadd, hmono.committed⟩
  · rw [heq]
    obtain ⟨hsuffix, hthree⟩ := hcompletes
    have hqcH2 := hmono.chain qcH2 (hsuffix.subset List.mem_cons_self)
    have hqcH1 := hmono.chain qcH1
      (hsuffix.subset (List.mem_cons_of_mem _ (List.mem_singleton_self qcH1)))
    refine ⟨hadd, List.forall_mem_append.mpr ⟨hmono.committed, ?_⟩⟩
    exact List.forall_mem_singleton.mpr ⟨qcH2, hqcH2.1, hqcH2.2, rfl, rfl, qcH1, hqcH1.1, hqcH1.2,
      hthree.height₁, hthree.parent₁⟩

end Sound

theorem sound_run (hrun : P.run actions = some net) (node : NodeId) :
    Sound P (actions.filterMap Action.certificate) net.votes (net.engines node) := by
  refine run_induction (I := fun pre net => ∀ node,
      Sound P (pre.filterMap Action.certificate) net.votes (net.engines node))
    (fun _ => ⟨fun _ hqc => absurd hqc List.not_mem_nil, fun _ hb => absurd hb List.not_mem_nil⟩)
    ?_ ?_ hrun node
  · intro pre net node header post _ _ h _ _ _ node'
    rw [List.filterMap_append]
    exact (h node').mono (List.subset_append_left _ _) (List.subset_append_left _ _)
  · intro pre net node qc slotQcs h _ hqc
    rw [List.filterMap_append]
    exact (Function.forall_update_iff net.engines fun _ e =>
        Sound P (pre.filterMap Action.certificate ++ [qc]) net.votes e).mpr
      ⟨(h node).processMacroQc hqc slotQcs, fun node' _ =>
        (h node').mono (List.subset_append_left _ _) (List.Subset.refl _)⟩

/-- Each vote was cast for a header. -/
lemma exists_header_of_vote (hrun : P.run actions = some net) : ∀ v ∈ net.votes, ∃ header,
    .vote v.voter header ∈ actions ∧ v.headerDigest = header.digest ∧
      v.height = header.height := by
  refine run_induction (I := fun pre net => ∀ v ∈ net.votes, ∃ header,
      .vote v.voter header ∈ pre ∧ v.headerDigest = header.digest ∧ v.height = header.height)
    (fun _ hv => absurd hv List.not_mem_nil) ?_ ?_ hrun
  · intro pre net node header post _ _ h _ _ _
    refine List.forall_mem_append.mpr ⟨fun v hv => ?_, List.forall_mem_singleton.mpr
      ⟨header, List.mem_append_right _ (List.mem_singleton_self _), rfl, rfl⟩⟩
    obtain ⟨header', hmem, heq⟩ := h v hv
    exact ⟨header', List.mem_append_left _ hmem, heq⟩
  · intro pre net node qc slotQcs h _ _ v hv
    obtain ⟨header', hmem, heq⟩ := h v hv
    exact ⟨header', List.mem_append_left _ hmem, heq⟩

/-- A relation between each vote and those cast before holds of all votes. -/
lemma votes_run {R : MacroVote → MacroVote → Prop} (hrefl : ∀ v, R v v)
    (hsymm : ∀ v v', R v v' → R v' v)
    (hvote : ∀ pre node header post, actions = pre ++ .vote node header :: post →
      ∀ net ∈ P.run pre, Unvoted net.votes node header →
        ∀ v ∈ net.votes, R v (voteOnHeader P.hash header node))
    (hrun : P.run actions = some net) : ∀ v ∈ net.votes, ∀ v' ∈ net.votes, R v v' := by
  refine run_induction (I := fun _ net => ∀ v ∈ net.votes, ∀ v' ∈ net.votes, R v v')
    (fun _ hv => absurd hv List.not_mem_nil) ?_ (fun _ _ _ _ _ h _ _ => h) hrun
  intro pre net node header post hsplit hpre hI _ hunvoted _
  have hnew := hvote pre node header post hsplit net hpre hunvoted
  refine List.forall_mem_append.mpr ⟨fun v hv => ?_, List.forall_mem_singleton.mpr ?_⟩
  · exact List.forall_mem_append.mpr ⟨hI v hv, List.forall_mem_singleton.mpr (hnew v hv)⟩
  · exact List.forall_mem_append.mpr ⟨fun v hv => hsymm _ _ (hnew v hv),
      List.forall_mem_singleton.mpr (hrefl _)⟩

/-- **In one view, a height has one certified header**, in every run. -/
theorem certified_unique {qc qc' : MacroQC} (hrun : P.run actions = some net)
    (h : P.Certified net.votes qc) (h' : P.Certified net.votes qc') (hview : qc.view = qc'.view)
    (hheight : qc.height = qc'.height) : qc.header.digest = qc'.header.digest := by
  have honce := votes_run (R := fun v v' => v.voter = v'.voter → v.view = v'.view →
      v.height = v'.height → v.headerDigest = v'.headerDigest) (fun _ _ _ _ => rfl)
    (fun v v' h hvoter hview hheight => (h hvoter.symm hview.symm hheight.symm).symm) ?_ hrun
  · refine h.headerDigest_eq h' (K := fun v => v.view = qc.view ∧ v.height = qc.height) ?_
      (fun v hv hv' => ⟨hv, hv'⟩) fun v hv hv' => ⟨hv.trans hview.symm, hv'.trans hheight.symm⟩
    intro v hv v' hv' hvoter hKv hKv'
    exact honce v hv v' hv' hvoter (hKv.1.trans hKv'.1.symm) (hKv.2.trans hKv'.2.symm)
  · intro pre node header post _ net _ hunvoted v hv hvoter hview hheight
    exact absurd ⟨hview, hheight⟩ (hunvoted v hv hvoter)

/-- No collisions in a run: headers with one digest name the same parent, and
certificates with one digest are for the same header. -/
structure CollisionFree (hash : List UInt8 → DigestBytes) (actions : List Action) : Prop where
  header : ∀ a ∈ actions, ∀ a' ∈ actions, a.header.digest = a'.header.digest →
    a.header.parentQc = a'.header.parentQc
  certificate : ∀ qc ∈ actions.filterMap Action.certificate,
    ∀ qc' ∈ actions.filterMap Action.certificate, qc.digest hash = qc'.digest hash →
      qc.headerDigest = qc'.headerDigest

/-- If both are votes of one node for one height, they name the same parent
certificate. -/
def KeepsParent : Action → Action → Prop
  | .vote node header, .vote node' header' => node = node' → header.height = header'.height →
      header.parentQc = header'.parentQc
  | _, _ => True

instance (a a' : Action) : Decidable (KeepsParent a a') :=
  match a, a' with
  | .vote _ _, .vote _ _ => inferInstanceAs (Decidable (_ → _))
  | .process _ _ _, _ | .vote _ _, .process _ _ _ => isTrue trivial

/-- The honest members of a quorum have voted for headers with the parent of a
certificate. -/
lemma Certified.backed_parent {qc : MacroQC} (hrun : P.run actions = some net)
    (hfree : CollisionFree P.hash actions) (h : P.Certified net.votes qc)
    (hqc : qc ∈ actions.filterMap Action.certificate) :
    P.quorums.Backed (fun node parent => ∃ header, .vote node header ∈ actions ∧
      header.height = qc.height ∧ header.parentQc = parent) qc.header.parentQc := by
  obtain ⟨a, ha, hcertificate⟩ := List.mem_filterMap.mp hqc
  have hheader : a.header = qc.header := by
    cases a with
    | vote node header => cases hcertificate
    | process node qc' slotQcs =>
        cases hcertificate
        rfl
  obtain ⟨quorum, hquorum, hvoted⟩ := h.backed (K := fun v => v.height = qc.height)
    fun _ _ hheight => hheight
  refine ⟨quorum, hquorum, fun node hnode hhonest => ?_⟩
  -- the vote names the digest of the certificate, the voter had a header with that digest,
  -- and without collisions that header has the parent of the certified one
  obtain ⟨v, hv, rfl, hdigest, hheight⟩ := hvoted node hnode hhonest
  obtain ⟨header, hmem, hsame, hheight'⟩ := exists_header_of_vote hrun v hv
  refine ⟨header, hmem, hheight'.symm.trans hheight, ?_⟩
  rw [← hheader]
  refine hfree.header _ hmem a ha ?_
  rw [hheader, ← h.headed, ← hdigest, hsame]
  rfl

/-- **Safety.** If the headers that an honest node votes for at one height name the same
parent certificate, no two engines commit different headers of one height. -/
theorem macro_safety (P : Protocol) (actions : List Action) (net : Network)
    (hrun : P.run actions = some net) (hfree : CollisionFree P.hash actions)
    (hkeep : ∀ a ∈ actions, ∀ a' ∈ actions, KeepsParent a a') :
    ∀ node node', ∀ b ∈ (net.engines node).committed, ∀ b' ∈ (net.engines node').committed,
      b.height = b'.height → b.header.digest = b'.header.digest := by
  intro node node' b hb b' hb' hheight
  obtain ⟨qc, hqc, hcertified, hb₁, hb₂, child, hchild, hvotes, hnext, hlink⟩ :=
    (sound_run hrun node).committed b hb
  obtain ⟨qc', hqc', hcertified', hb₁', hb₂', child', hchild', hvotes', hnext', hlink'⟩ :=
    (sound_run hrun node').committed b' hb'
  -- an honest node has voted for both second links, so they have one parent
  have hheights : child.height = child'.height := by
    rw [hnext, hnext', ← hb₁, ← hb₁', hheight]
  have hparent : child.header.parentQc = child'.header.parentQc := by
    have hbacked := hvotes.backed_parent hrun hfree hchild
    rw [hheights] at hbacked
    refine P.quorums.eq_of_backed ?_ hbacked (hvotes'.backed_parent hrun hfree hchild')
    rintro voter - ⟨header, hmem, hat, heq⟩ ⟨header', hmem', hat', heq'⟩
    rw [← heq, ← heq']
    exact hkeep _ hmem _ hmem' rfl (hat.trans hat'.symm)
  rw [hlink, hlink'] at hparent
  have hdigest := hfree.certificate qc hqc qc' hqc' (Option.some.inj hparent)
  rw [hb₂, hb₂', ← hcertified.headed, ← hcertified'.headed, hdigest]

/-! ### Two branches -/

/-- A hash of byte strings by a polynomial. -/
def polynomialHash (data : List UInt8) : DigestBytes where
  bytes :=
    let n := data.foldl (fun acc b => acc * 257 + b.toNat + 1) 0
    (List.range 32).map fun i => UInt8.ofNat (n / 256 ^ i)
  length_eq := by simp

/-- Four nodes, none of them faulty. -/
def fourNodes : Protocol where
  committee := ⟨[0, 1, 2, 3], by decide, by decide⟩
  byzantine := ∅
  byzantine_le := by decide
  hash := polynomialHash

/-- A slot without certificates. -/
def emptySlot : SlotQC where
  view := 0
  slot := 0
  proposalDigest := polynomialHash []
  proposal := ⟨0, 0, 0, [], ⟨0, 0⟩, polynomialHash []⟩
  votes := []

/-- The certificate of a header with the votes of three nodes. -/
def collect (header : MacroHeader) : MacroQC where
  view := header.view
  height := header.height
  headerDigest := header.digest
  header := header
  votes := [0, 1, 2].map (voteOnHeader polynomialHash header)

/-- The certificates of a chain of headers that the leader of a view
proposes. -/
def branch (view : View) : ℕ → MacroQC
  | 0 => collect (createMacroHeader polynomialHash view 0 (fourNodes.committee.leader view) none
      [emptySlot])
  | n + 1 => collect (createMacroHeader polynomialHash view ((branch view n).height + 1)
      (fourNodes.committee.leader view) (some (branch view n)) [emptySlot])

/-- Three nodes vote for three headers of a branch. -/
def voteBranch (view : View) : List Action :=
  (List.range 3).flatMap fun n => [0, 1, 2].map fun node => .vote node (branch view n).header

/-- A node processes the three certificates. -/
def processBranch (view : View) (node : NodeId) : List Action :=
  (List.range 3).map fun n => .process node (branch view n) [emptySlot]

/-- The leader of the next view proposes again the header of the last height. -/
def proposedAgain : MacroQC :=
  collect (createMacroHeader polynomialHash 1 2 (fourNodes.committee.leader 1)
    (some (branch 0 1)) [emptySlot])

/-- Three nodes vote for the headers of a branch and for that which is proposed again. One
engine processes the branch, another one the certificate of the second proposal in place
of the last. -/
def oneBranch : List Action :=
  voteBranch 0 ++ processBranch 0 0 ++ ([0, 1, 2].map fun node => .vote node proposedAgain.header) ++
    (processBranch 0 1).take 2 ++ [.process 1 proposedAgain [emptySlot]]

/-- Both engines commit the first header, although nodes have voted for two headers of
the last height. -/
theorem macro_safety_one_branch : ∃ net, fourNodes.run oneBranch = some net ∧
    (branch 0 2).header.digest ≠ proposedAgain.header.digest ∧
    (net.engines 0).committed ≠ [] ∧ (net.engines 1).committed ≠ [] ∧
    ∀ b ∈ (net.engines 0).committed, ∀ b' ∈ (net.engines 1).committed,
      b.height = b'.height → b.header.digest = b'.header.digest := by
  have hsome : ∃ net ∈ fourNodes.run oneBranch, (branch 0 2).header.digest ≠
      proposedAgain.header.digest ∧ (net.engines 0).committed ≠ [] ∧
      (net.engines 1).committed ≠ [] := by decide +kernel
  obtain ⟨net, hnet, hdigest, hcommitted, hcommitted'⟩ := hsome
  have hfree : CollisionFree fourNodes.hash oneBranch := ⟨by decide +kernel, by decide +kernel⟩
  exact ⟨net, hnet, hdigest, hcommitted, hcommitted',
    macro_safety _ _ net hnet hfree (by decide +kernel) 0 1⟩

/-- Node 0 commits a header of height 0 in view 0 and is locked on height 1.
It then votes, as the others do, for a header of height 1 in view 1 whose parent
has height 0, and node 1 commits another header of height 0. No two headers have
the same digest. -/
theorem conflicting_commits :
    (((List.range 3).map (branch 0) ++ (List.range 3).map (branch 1)).map fun qc =>
      qc.header.digest).Nodup ∧
    ∃ net ∈ fourNodes.run (voteBranch 0 ++ processBranch 0 0 ++ voteBranch 1 ++ processBranch 1 1),
      (∃ qc ∈ (net.engines 0).lockedQc, qc.height = 1) ∧
      ∃ b ∈ (net.engines 0).committed, ∃ b' ∈ (net.engines 1).committed,
        b.height = b'.height ∧ b.header.digest ≠ b'.header.digest := by
  decide +kernel

end Protocol

end StablecoinSystem.ControlPlane
