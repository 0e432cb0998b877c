import StablecoinSystem.ControlPlane.Types

/-!
`ConsensusEngine` and the voting on macro headers (`control_plane/mod.rs`,
`control_plane/macro_layer.rs`).

* `ThreeChain`: what the commit rule asks of three certificates;
* `processMacroQc_cases`: `process_macro_qc` adds a certificate to the chain, and
  commits if the certificate completes a three-chain.
-/

namespace StablecoinSystem.ControlPlane

variable (hash : List UInt8 → DigestBytes)

/-! ### Headers and votes -/

/-- `create_macro_header`. -/
def createMacroHeader (view : View) (height : Height) (leader : NodeId)
    (parentQc : Option MacroQC) (slotQcs : List SlotQC) : MacroHeader :=
  let parentQcDigest := parentQc.map (MacroQC.digest hash)
  let slotEntries := slotQcs.map fun qc => ⟨qc.slot, qc.digest hash⟩
  { view := view
    height := height
    leader := leader
    parentQc := parentQcDigest
    slotEntries := slotEntries
    digest := MacroHeader.computeDigest hash view height leader parentQcDigest slotEntries }

/-- `validate_macro_header`. -/
def validateMacroHeader (header : MacroHeader) (committee : Committee)
    (lockedQc : Option MacroQC) : Bool :=
  if header.leader ≠ committee.leader header.view then false
  else
    let lockRule :=
      match lockedQc with
      | none => true
      | some _ =>
          match header.parentQc with
          -- the height of the parent is not compared with that of the lock
          | some _ => true
          | none => !decide (0 < header.height)
    if !lockRule then false
    else if header.slotEntries.isEmpty && decide (0 < header.height) then false
    else true

/-- `vote_on_header`. -/
def voteOnHeader (header : MacroHeader) (voter : NodeId) : MacroVote where
  view := header.view
  height := header.height
  headerDigest := header.digest
  voter := voter
  signature := Signature.sign hash voter header.digest.bytes

/-! ### The engine -/

/-- Three certificates of consecutive heights, each the parent of the next. -/
structure ThreeChain (qcH2 qcH1 qcH : MacroQC) : Prop where
  height₁ : qcH1.height = qcH2.height + 1
  height₂ : qcH.height = qcH1.height + 1
  parent₁ : qcH1.header.parentQc = some (qcH2.digest hash)
  parent₂ : qcH.header.parentQc = some (qcH1.digest hash)

instance (qcH2 qcH1 qcH : MacroQC) : Decidable (ThreeChain hash qcH2 qcH1 qcH) :=
  decidable_of_iff (qcH1.height = qcH2.height + 1 ∧ qcH.height = qcH1.height + 1 ∧
      qcH1.header.parentQc = some (qcH2.digest hash) ∧
      qcH.header.parentQc = some (qcH1.digest hash))
    ⟨fun ⟨h₁, h₂, h₃, h₄⟩ => ⟨h₁, h₂, h₃, h₄⟩,
      fun h => ⟨h.height₁, h.height₂, h.parent₁, h.parent₂⟩⟩

/-- `ConsensusEngine`. -/
structure ConsensusEngine where
  committee : Committee
  nodeId : NodeId
  currentView : View
  currentHeight : Height
  lockedQc : Option MacroQC
  highQc : Option MacroQC
  committed : List CommittedBlock
  macroQcChain : List MacroQC

namespace ConsensusEngine

/-- `ConsensusEngine::new`. -/
def new (committee : Committee) (nodeId : NodeId) : ConsensusEngine where
  committee := committee
  nodeId := nodeId
  currentView := 0
  currentHeight := 0
  lockedQc := none
  highQc := none
  committed := []
  macroQcChain := []

/-- The chain and the highest certificate once `qc` is received. -/
def addQc (e : ConsensusEngine) (qc : MacroQC) : ConsensusEngine :=
  let shouldUpdate :=
    match e.highQc with
    | none => true
    | some existing => decide (qc.height > existing.height)
  { e with
    highQc := if shouldUpdate then some qc else e.highQc
    macroQcChain := e.macroQcChain ++ [qc] }

/-- The block that a certificate commits. -/
def blockOf (qc : MacroQC) (slotQcs : List SlotQC) : CommittedBlock where
  height := qc.height
  view := qc.view
  header := qc.header
  qc := qc
  slotQcs := slotQcs

/-- `process_macro_qc`: the engine afterwards and the blocks newly committed.
Heights wrap, as in a build without overflow checks. -/
def processMacroQc (e : ConsensusEngine) (qc : MacroQC) (slotQcs : List SlotQC) :
    ConsensusEngine × List CommittedBlock :=
  let e := e.addQc qc
  match e.macroQcChain.reverse with
  | qcH :: qcH1 :: qcH2 :: _ =>
      if qcH.height = qcH1.height + 1 ∧ qcH1.height = qcH2.height + 1 then
        if qcH.header.parentQc = some (qcH1.digest hash) ∧
            qcH1.header.parentQc = some (qcH2.digest hash) then
          let block := blockOf qcH2 slotQcs
          ({ e with
              committed := e.committed ++ [block]
              lockedQc := some qcH1
              currentHeight := qcH2.height + 1 }, [block])
        else (e, [])
      else (e, [])
  | _ => (e, [])

/-- The engine holds the first two of three certificates that extend one
another as the last two of its chain, and `qc` is the third. -/
def Completes (e : ConsensusEngine) (qcH2 qcH1 qc : MacroQC) : Prop :=
  [qcH2, qcH1] <:+ e.macroQcChain ∧ ThreeChain hash qcH2 qcH1 qc

/-- The engine once the first of three certificates is committed and the second
locked. -/
def commit (e : ConsensusEngine) (qcH2 qcH1 qc : MacroQC) (slotQcs : List SlotQC) :
    ConsensusEngine :=
  { e.addQc qc with
    committed := e.committed ++ [blockOf qcH2 slotQcs]
    lockedQc := some qcH1
    currentHeight := qcH2.height + 1 }

variable {hash}

lemma processMacroQc_of_completes {e : ConsensusEngine} {qcH2 qcH1 qc : MacroQC}
    (h : e.Completes hash qcH2 qcH1 qc) (slotQcs : List SlotQC) :
    e.processMacroQc hash qc slotQcs =
      (e.commit qcH2 qcH1 qc slotQcs, [blockOf qcH2 slotQcs]) := by
  obtain ⟨⟨chain, hchain⟩, hthree⟩ := h
  have hrev : (e.addQc qc).macroQcChain.reverse = qc :: qcH1 :: qcH2 :: chain.reverse := by
    change (e.macroQcChain ++ [qc]).reverse = _
    rw [← hchain]
    simp
  simp only [processMacroQc, hrev]
  rw [if_pos ⟨hthree.height₂, hthree.height₁⟩, if_pos ⟨hthree.parent₂, hthree.parent₁⟩]
  rfl

lemma processMacroQc_of_not_completes {e : ConsensusEngine} {qc : MacroQC}
    (h : ∀ qcH2 qcH1, ¬e.Completes hash qcH2 qcH1 qc) (slotQcs : List SlotQC) :
    e.processMacroQc hash qc slotQcs = (e.addQc qc, []) := by
  simp only [processMacroQc]
  split
  · rename_i qcH qcH1 qcH2 rest hrev
    have hchain : e.macroQcChain ++ [qc] = rest.reverse ++ [qcH2, qcH1] ++ [qcH] := by
      have hrev' : (e.macroQcChain ++ [qc]).reverse = qcH :: qcH1 :: qcH2 :: rest := hrev
      rw [← List.reverse_reverse (e.macroQcChain ++ [qc]), hrev']
      simp
    obtain ⟨hinit, hlast⟩ := List.append_inj' hchain rfl
    cases hlast
    have hno := h qcH2 qcH1
    split
    · rename_i hheights
      split
      · rename_i hlinks
        exact absurd ⟨⟨_, hinit.symm⟩, hheights.2, hheights.1, hlinks.2, hlinks.1⟩ hno
      · rfl
    · rfl
  · rfl

/-- A certificate is added to the chain. If the last three then extend one
another, the first of them is committed and the second locked. -/
lemma processMacroQc_cases (hash : List UInt8 → DigestBytes) (e : ConsensusEngine) (qc : MacroQC)
    (slotQcs : List SlotQC) :
    ((∀ qcH2 qcH1, ¬e.Completes hash qcH2 qcH1 qc) ∧
        e.processMacroQc hash qc slotQcs = (e.addQc qc, [])) ∨
      ∃ qcH2 qcH1, e.Completes hash qcH2 qcH1 qc ∧ e.processMacroQc hash qc slotQcs =
        (e.commit qcH2 qcH1 qc slotQcs, [blockOf qcH2 slotQcs]) := by
  by_cases h : ∃ qcH2 qcH1, e.Completes hash qcH2 qcH1 qc
  · obtain ⟨qcH2, qcH1, h⟩ := h
    exact Or.inr ⟨qcH2, qcH1, h, processMacroQc_of_completes h slotQcs⟩
  · push Not at h
    exact Or.inl ⟨h, processMacroQc_of_not_completes h slotQcs⟩

end ConsensusEngine

end StablecoinSystem.ControlPlane
