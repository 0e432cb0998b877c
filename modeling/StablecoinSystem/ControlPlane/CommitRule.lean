import Mathlib.Data.List.Infix
import StablecoinSystem.ControlPlane.Safety

/-!
The commit rule of one engine over any sequence of `process_macro_qc` calls.

The rule looks at the last three certificates received and at nothing else: not
at what is committed or locked, nor at certificates received before. For each
property one would expect of it, the exact condition on the calls is given.

* `exists_committed_run`: what is committed are the three-chains received in
  consecutive calls;
* `committed_increasing_iff`: the committed heights increase;
* `committed_slots_iff`: a committed block carries its own slot certificates;
* `commit_complete_iff`: a block is committed once its three-chain is received;
* `locks_advance_iff`: the lock and the current height do not go back.
-/

namespace StablecoinSystem.ControlPlane.ConsensusEngine

/-- A call of `process_macro_qc`: the certificate and the slot certificates. -/
abbrev Call := MacroQC × List SlotQC

variable (hash : List UInt8 → DigestBytes) (committee : Committee) (nodeId : NodeId)

/-- A fresh engine after a sequence of calls. -/
def run (calls : List Call) : ConsensusEngine :=
  calls.foldl (fun e call => (e.processMacroQc hash call.1 call.2).1) (new committee nodeId)

variable {hash committee nodeId}

lemma run_append_singleton (calls : List Call) (call : Call) :
    run hash committee nodeId (calls ++ [call]) =
      ((run hash committee nodeId calls).processMacroQc hash call.1 call.2).1 := by
  rw [run, List.foldl_append]
  rfl

lemma macroQcChain_processMacroQc (hash : List UInt8 → DigestBytes) (e : ConsensusEngine)
    (qc : MacroQC) (slotQcs : List SlotQC) :
    (e.processMacroQc hash qc slotQcs).1.macroQcChain = e.macroQcChain ++ [qc] := by
  rcases processMacroQc_cases hash e qc slotQcs with ⟨-, heq⟩ | ⟨qcH2, qcH1, -, heq⟩
  · rw [heq]
    rfl
  · rw [heq]
    rfl

/-- The chain is the list of all certificates received. -/
lemma macroQcChain_run (calls : List Call) :
    (run hash committee nodeId calls).macroQcChain = calls.map Prod.fst := by
  induction calls using List.reverseRecOn with
  | nil => rfl
  | append_singleton calls call ih =>
      rw [run_append_singleton, macroQcChain_processMacroQc, ih, List.map_append]
      rfl

/-! ### Three-chains received -/

lemma infix_three_concat_iff {α : Type} {l : List α} {a b c x : α} :
    [a, b, c] <:+: l ++ [x] ↔ ([a, b] <:+ l ∧ c = x) ∨ [a, b, c] <:+: l := by
  rw [List.infix_concat_iff, List.suffix_concat_iff]
  refine or_congr_left ⟨?_, ?_⟩
  · rintro (h | ⟨t, h, ht⟩)
    · cases h
    · have hsplit : [a, b] ++ [c] = t ++ [x] := h
      obtain ⟨rfl, hlast⟩ := List.append_inj' hsplit rfl
      cases hlast
      exact ⟨ht, rfl⟩
  · rintro ⟨hsuffix, rfl⟩
    exact Or.inr ⟨[a, b], rfl, hsuffix⟩

/-- Three certificates that extend one another are received one right after the
other. -/
def Received (hash : List UInt8 → DigestBytes) (qcs : List MacroQC) (qcH2 qcH1 qc : MacroQC) :
    Prop :=
  [qcH2, qcH1, qc] <:+: qcs ∧ ThreeChain hash qcH2 qcH1 qc

lemma received_nil {qcH2 qcH1 qc : MacroQC} : ¬Received hash [] qcH2 qcH1 qc :=
  fun h => by simpa using List.infix_nil.mp h.1

/-- A certificate is the last of a three-chain if the two received right before
it are the others. -/
lemma received_append_singleton {qcs : List MacroQC} {x qcH2 qcH1 qc : MacroQC} :
    Received hash (qcs ++ [x]) qcH2 qcH1 qc ↔
      ([qcH2, qcH1] <:+ qcs ∧ ThreeChain hash qcH2 qcH1 x ∧ qc = x) ∨
        Received hash qcs qcH2 qcH1 qc := by
  rw [Received, infix_three_concat_iff, or_and_right]
  refine or_congr_left ⟨?_, ?_⟩
  · rintro ⟨⟨hsuffix, rfl⟩, hthree⟩
    exact ⟨hsuffix, hthree, rfl⟩
  · rintro ⟨hsuffix, hthree, rfl⟩
    exact ⟨⟨hsuffix, rfl⟩, hthree⟩

/-- A call completes a three-chain if its certificate extends the two received
right before it. -/
lemma completes_run_iff {calls : List Call} {qcH2 qcH1 qc : MacroQC} :
    (run hash committee nodeId calls).Completes hash qcH2 qcH1 qc ↔
      [qcH2, qcH1] <:+ calls.map Prod.fst ∧ ThreeChain hash qcH2 qcH1 qc := by
  rw [Completes, macroQcChain_run]

section Committed

variable {α : Type} {f : CommittedBlock → α} {g : MacroQC → α}
  (hblock : ∀ qc slotQcs, f (blockOf qc slotQcs) = g qc)
include hblock

/-- What a call commits, as far as it is read off the first certificate. -/
lemma exists_committed_processMacroQc (e : ConsensusEngine) (call : Call) (x : α) :
    (∃ b ∈ (e.processMacroQc hash call.1 call.2).1.committed, f b = x) ↔
      (∃ b ∈ e.committed, f b = x) ∨
        ∃ qcH2 qcH1, e.Completes hash qcH2 qcH1 call.1 ∧ g qcH2 = x := by
  have hcommit (qcH2 qcH1 : MacroQC) :
      (∃ b ∈ (e.commit qcH2 qcH1 call.1 call.2).committed, f b = x) ↔
        (∃ b ∈ e.committed, f b = x) ∨ g qcH2 = x := by
    simp [commit, hblock, or_and_right, exists_or]
  rcases processMacroQc_cases hash e call.1 call.2 with
    ⟨hnot, heq⟩ | ⟨qcH2, qcH1, hcompletes, heq⟩
  · rw [heq]
    exact ⟨Or.inl, fun h => h.resolve_right fun ⟨qcH2, qcH1, hc, _⟩ => hnot qcH2 qcH1 hc⟩
  · refine ⟨fun h => ?_, fun h => ?_⟩
    · rw [heq] at h
      exact ((hcommit qcH2 qcH1).mp h).imp_right fun h => ⟨qcH2, qcH1, hcompletes, h⟩
    · rcases h with h | ⟨qcH2', qcH1', hc, h⟩
      · rw [heq]
        exact (hcommit qcH2 qcH1).mpr (Or.inl h)
      · rw [processMacroQc_of_completes hc]
        exact (hcommit qcH2' qcH1').mpr (Or.inr h)

/-- **What is committed** are the first certificates of the three-chains that are
received in consecutive calls. -/
theorem exists_committed_run (calls : List Call) (x : α) :
    (∃ b ∈ (run hash committee nodeId calls).committed, f b = x) ↔
      ∃ qcH2 qcH1 qc, Received hash (calls.map Prod.fst) qcH2 qcH1 qc ∧ g qcH2 = x := by
  induction calls using List.reverseRecOn with
  | nil => simp [run, new, received_nil]
  | append_singleton calls call ih =>
      rw [run_append_singleton, exists_committed_processMacroQc hblock, ih]
      simp only [completes_run_iff, List.map_append, List.map_singleton,
        received_append_singleton]
      constructor
      · rintro (⟨qcH2, qcH1, qc, hreceived, hx⟩ | ⟨qcH2, qcH1, ⟨hsuffix, hthree⟩, hx⟩)
        · exact ⟨qcH2, qcH1, qc, Or.inr hreceived, hx⟩
        · exact ⟨qcH2, qcH1, call.1, Or.inl ⟨hsuffix, hthree, rfl⟩, hx⟩
      · rintro ⟨qcH2, qcH1, qc, ⟨hsuffix, hthree, rfl⟩ | hreceived, hx⟩
        · exact Or.inr ⟨qcH2, qcH1, ⟨hsuffix, hthree⟩, hx⟩
        · exact Or.inl ⟨qcH2, qcH1, qc, hreceived, hx⟩

end Committed

/-- If a commit keeps `I` exactly when it meets `P`, a sequence of calls keeps
`I` exactly when all its commits meet `P`. -/
theorem run_iff_forallSplit {I : ConsensusEngine → Prop}
    {P : ConsensusEngine → MacroQC → Call → Prop} {calls : List Call}
    (hinit : I (new committee nodeId)) (hadd : ∀ e qc, I (e.addQc qc) ↔ I e)
    (hcommit : ∀ call ∈ calls, ∀ (e : ConsensusEngine) qcH2 qcH1,
      I (e.commit qcH2 qcH1 call.1 call.2) ↔ I e ∧ P e qcH2 call) :
    I (run hash committee nodeId calls) ↔ ForallSplit (fun pre call =>
      ∀ qcH2 qcH1, (run hash committee nodeId pre).Completes hash qcH2 qcH1 call.1 →
        P (run hash committee nodeId pre) qcH2 call) calls := by
  refine foldl_iff_forallSplit (P := fun (e : ConsensusEngine) (call : Call) =>
    ∀ qcH2 qcH1, e.Completes hash qcH2 qcH1 call.1 → P e qcH2 call) hinit ?_
  intro call hcall e
  rcases processMacroQc_cases hash e call.1 call.2 with
    ⟨hnot, heq⟩ | ⟨qcH2, qcH1, hcompletes, heq⟩
  · rw [heq, hadd]
    exact ⟨fun h => ⟨h, fun qcH2 qcH1 hc => absurd hc (hnot qcH2 qcH1)⟩, fun h => h.1⟩
  · refine ⟨fun h => ⟨?_, fun qcH2' qcH1' hc => ?_⟩, fun ⟨hI, h⟩ => ?_⟩
    · rw [heq] at h
      exact ((hcommit call hcall e qcH2 qcH1).mp h).1
    · rw [processMacroQc_of_completes hc] at h
      exact ((hcommit call hcall e qcH2' qcH1').mp h).2
    · rw [heq]
      exact (hcommit call hcall e qcH2 qcH1).mpr ⟨hI, h qcH2 qcH1 hcompletes⟩

/-- The certificates `branch 0 n` for the given `n`, received in this order. -/
def branchCalls (ns : List ℕ) : List Call :=
  ns.map fun n => (Protocol.branch 0 n, [Protocol.emptySlot])

/-! ### Heights -/

/-- **Committed heights increase** exactly when each certificate that completes a
three-chain with the two received right before it starts that chain above all
three-chains received in consecutive calls before. -/
theorem committed_increasing_iff (hash : List UInt8 → DigestBytes) (committee : Committee)
    (nodeId : NodeId) (calls : List Call) :
    ((run hash committee nodeId calls).committed.map CommittedBlock.height).Pairwise (· < ·) ↔
      ForallSplit (fun pre call =>
        ∀ qcH2 qcH1, [qcH2, qcH1] <:+ pre.map Prod.fst → ThreeChain hash qcH2 qcH1 call.1 →
          ∀ q0 q1 q2, Received hash (pre.map Prod.fst) q0 q1 q2 → q0.height < qcH2.height)
        calls := by
  rw [run_iff_forallSplit
    (I := fun e => (e.committed.map CommittedBlock.height).Pairwise (· < ·))
    (P := fun e qcH2 _ => ∀ b ∈ e.committed, b.height < qcH2.height)
    List.Pairwise.nil (fun _ _ => Iff.rfl)
    (fun call _ e qcH2 qcH1 => by simp [commit, blockOf, List.pairwise_append])]
  -- the blocks committed so far are the three-chains received so far
  have hbelow (pre : List Call) (height : Height) :
      (∀ b ∈ (run hash committee nodeId pre).committed, b.height < height) ↔
        ∀ q0 q1 q2, Received hash (pre.map Prod.fst) q0 q1 q2 → q0.height < height := by
    have hheights (h : Height) :
        (∃ b ∈ (run hash committee nodeId pre).committed, b.height = h) ↔
          ∃ q0 q1 q2, Received hash (pre.map Prod.fst) q0 q1 q2 ∧ q0.height = h :=
      exists_committed_run (fun _ _ => rfl) pre h
    constructor
    · intro h q0 q1 q2 hreceived
      obtain ⟨b, hb, heq⟩ := (hheights q0.height).mpr ⟨q0, q1, q2, hreceived, rfl⟩
      exact heq ▸ h b hb
    · intro h b hb
      obtain ⟨q0, q1, q2, hreceived, heq⟩ := (hheights b.height).mp ⟨b, hb, rfl⟩
      exact heq ▸ h q0 q1 q2 hreceived
  simp only [ForallSplit, completes_run_iff, hbelow, and_imp]

/-- The certificates of one branch, received twice. Each passes `verify`, and
height 0 is committed twice. -/
theorem committed_twice :
    let calls := branchCalls [0, 1, 2, 0, 1, 2]
    (∀ call ∈ calls, call.1.verify Protocol.fourNodes.committee.quorumThreshold = true) ∧
      (run Protocol.polynomialHash Protocol.fourNodes.committee 0 calls).committed.map
        CommittedBlock.height = [0, 0] := by
  decide +kernel

/-! ### Slot certificates -/

/-- The entries of a header for slot certificates. -/
def entriesOf (hash : List UInt8 → DigestBytes) (slotQcs : List SlotQC) : List SlotEntry :=
  slotQcs.map fun qc => ⟨qc.slot, qc.digest hash⟩

/-- The header of the certificate is built from the slot certificates of the
call. -/
def BuiltFrom (hash : List UInt8 → DigestBytes) (call : Call) : Prop :=
  ∃ view height leader parentQc,
    call.1.header = createMacroHeader hash view height leader parentQc call.2

lemma BuiltFrom.slotEntries {call : Call} (h : BuiltFrom hash call) :
    call.1.header.slotEntries = entriesOf hash call.2 := by
  obtain ⟨view, height, leader, parentQc, hheader⟩ := h
  rw [hheader]
  rfl

/-- **A committed block carries its own slot certificates** exactly when every
call that completes a three-chain has the slot entries of its first header, two
heights below. -/
theorem committed_slots_iff (hash : List UInt8 → DigestBytes) (committee : Committee)
    (nodeId : NodeId) (calls : List Call) (hbuilt : ∀ call ∈ calls, BuiltFrom hash call) :
    (∀ b ∈ (run hash committee nodeId calls).committed,
        entriesOf hash b.slotQcs = b.header.slotEntries) ↔
      ForallSplit (fun pre call =>
        ∀ qcH2 qcH1, (run hash committee nodeId pre).Completes hash qcH2 qcH1 call.1 →
          call.1.header.slotEntries = qcH2.header.slotEntries) calls := by
  refine run_iff_forallSplit
    (I := fun e => ∀ b ∈ e.committed, entriesOf hash b.slotQcs = b.header.slotEntries)
    (P := fun _ qcH2 call => call.1.header.slotEntries = qcH2.header.slotEntries)
    (fun b hb => absurd hb List.not_mem_nil) (fun _ _ => Iff.rfl) ?_
  intro call hcall e qcH2 qcH1
  rw [(hbuilt call hcall).slotEntries]
  simp only [commit, List.forall_mem_append, List.forall_mem_singleton]
  rfl

/-- The certificates of a chain in which each header is built from a slot
certificate of its own. -/
def slotChain : ℕ → Call
  | 0 =>
      let slotQc := { Protocol.emptySlot with slot := 0 }
      (Protocol.collect (createMacroHeader Protocol.polynomialHash 0 0 0 none [slotQc]), [slotQc])
  | n + 1 =>
      let parent := (slotChain n).1
      let slotQc := { Protocol.emptySlot with slot := UInt64.ofNat (n + 1) }
      (Protocol.collect (createMacroHeader Protocol.polynomialHash 0 (parent.height + 1) 0
        (some parent) [slotQc]), [slotQc])

lemma builtFrom_slotChain (n : ℕ) : BuiltFrom Protocol.polynomialHash (slotChain n) := by
  cases n with
  | zero => exact ⟨_, _, _, _, rfl⟩
  | succ n => exact ⟨_, _, _, _, rfl⟩

/-- The block of height 0 is committed with the slot certificates of height 2. -/
theorem committed_other_slots :
    let calls := (List.range 3).map slotChain
    (∀ call ∈ calls, BuiltFrom Protocol.polynomialHash call) ∧
      ∃ b ∈ (run Protocol.polynomialHash Protocol.fourNodes.committee 0 calls).committed,
        entriesOf Protocol.polynomialHash b.slotQcs ≠ b.header.slotEntries := by
  refine ⟨?_, by decide +kernel⟩
  intro call hcall
  obtain ⟨n, -, rfl⟩ := List.mem_map.mp hcall
  exact builtFrom_slotChain n

/-- Three headers built from the same slot certificate. -/
theorem committed_slots_branch :
    let e := run Protocol.polynomialHash Protocol.fourNodes.committee 0 (branchCalls [0, 1, 2])
    e.committed ≠ [] ∧ ∀ b ∈ e.committed,
      entriesOf Protocol.polynomialHash b.slotQcs = b.header.slotEntries := by
  have hbuilt : ∀ call ∈ branchCalls [0, 1, 2], BuiltFrom Protocol.polynomialHash call ∧
      call.2 = [Protocol.emptySlot] := by
    intro call hcall
    obtain ⟨n, -, rfl⟩ := List.mem_map.mp hcall
    refine ⟨?_, rfl⟩
    cases n with
    | zero => exact ⟨_, _, _, _, rfl⟩
    | succ n => exact ⟨_, _, _, _, rfl⟩
  have hentries : ∀ qc ∈ (branchCalls [0, 1, 2]).map Prod.fst, qc.header.slotEntries =
      entriesOf Protocol.polynomialHash [Protocol.emptySlot] := by
    intro qc hqc
    obtain ⟨call, hcall, rfl⟩ := List.mem_map.mp hqc
    rw [(hbuilt call hcall).1.slotEntries, (hbuilt call hcall).2]
  refine ⟨by decide +kernel, (committed_slots_iff _ _ 0 _ fun call hcall =>
    (hbuilt call hcall).1).mpr ?_⟩
  intro pre call post hcalls qcH2 qcH1 hcompletes
  have hmem := hcompletes.1.subset List.mem_cons_self
  rw [macroQcChain_run] at hmem
  rw [hentries call.1 (by simp [hcalls]), hentries qcH2 (by simp [hcalls, hmem])]

/-! ### Completeness -/

/-- **A block is committed once its three-chain is received**, in any order,
exactly when for every three-chain among the certificates received, one for the
same header is received one certificate right after the other. -/
theorem commit_complete_iff (hash : List UInt8 → DigestBytes) (committee : Committee)
    (nodeId : NodeId) (calls : List Call) :
    (∀ q0 ∈ (run hash committee nodeId calls).macroQcChain,
      ∀ q1 ∈ (run hash committee nodeId calls).macroQcChain,
      ∀ q2 ∈ (run hash committee nodeId calls).macroQcChain, ThreeChain hash q0 q1 q2 →
        ∃ b ∈ (run hash committee nodeId calls).committed, b.header.digest = q0.header.digest) ↔
      ∀ q0 ∈ calls.map Prod.fst, ∀ q1 ∈ calls.map Prod.fst, ∀ q2 ∈ calls.map Prod.fst,
        ThreeChain hash q0 q1 q2 → ∃ qcH2 qcH1 qc, [qcH2, qcH1, qc] <:+: calls.map Prod.fst ∧
          ThreeChain hash qcH2 qcH1 qc ∧ qcH2.header.digest = q0.header.digest := by
  have hcommitted (digest : DigestBytes) :
      (∃ b ∈ (run hash committee nodeId calls).committed, b.header.digest = digest) ↔
        ∃ qcH2 qcH1 qc, Received hash (calls.map Prod.fst) qcH2 qcH1 qc ∧
          qcH2.header.digest = digest :=
    exists_committed_run (fun _ _ => rfl) calls digest
  simp only [macroQcChain_run, hcommitted, Received, and_assoc]

/-- The second of three certificates is received twice, and nothing is
committed. -/
theorem commit_missed :
    let e := run Protocol.polynomialHash Protocol.fourNodes.committee 0 (branchCalls [0, 1, 1, 2])
    (∃ q0 ∈ e.macroQcChain, ∃ q1 ∈ e.macroQcChain, ∃ q2 ∈ e.macroQcChain,
      ThreeChain Protocol.polynomialHash q0 q1 q2) ∧ e.committed = [] := by
  decide +kernel

/-! ### Locks -/

/-- A highest certificate of those given. -/
def HighestOf (qcs : List MacroQC) (high : Option MacroQC) : Prop :=
  ∃ qc ∈ high, qc ∈ qcs ∧ ∀ qc' ∈ qcs, qc'.height ≤ qc.height

/-- A call that takes an engine which has then received `qcs` from `e` to `e'`
moves nothing back. -/
structure Advances (qcs : List MacroQC) (e e' : ConsensusEngine) : Prop where
  high : HighestOf qcs e'.highQc
  locked : ∀ qc ∈ e.lockedQc, ∃ qc' ∈ e'.lockedQc, qc.height ≤ qc'.height
  lockedLe : ∀ qc ∈ e'.lockedQc, ∃ qc' ∈ e'.highQc, qc.height ≤ qc'.height
  height : e.currentHeight ≤ e'.currentHeight

/-- The locked certificate is one of the chain, at the current height. -/
structure LockHeld (e : ConsensusEngine) : Prop where
  high : (e.macroQcChain = [] ∧ e.highQc = none) ∨ HighestOf e.macroQcChain e.highQc
  mem : ∀ qc ∈ e.lockedQc, qc ∈ e.macroQcChain
  height : ∀ qc ∈ e.lockedQc, qc.height = e.currentHeight

namespace LockHeld

variable {e : ConsensusEngine}

/-- `high_qc` is compared before it is replaced. -/
lemma highestOf_addQc (h : LockHeld e) (qc : MacroQC) :
    HighestOf (e.macroQcChain ++ [qc]) (e.addQc qc).highQc := by
  rcases h.high with ⟨hchain, hnone⟩ | ⟨high, hhigh, hmem, hmax⟩
  · exact ⟨qc, by simp [addQc, hnone], by simp, by simp [hchain]⟩
  · rw [Option.mem_def] at hhigh
    by_cases hgt : qc.height > high.height
    · refine ⟨qc, by simp [addQc, hhigh, hgt], by simp, ?_⟩
      refine List.forall_mem_append.mpr ⟨fun qc' hqc' => ?_, by simp⟩
      exact UInt64.le_trans (hmax qc' hqc') (UInt64.le_of_lt hgt)
    · refine ⟨high, by simp [addQc, hhigh, hgt], List.mem_append_left _ hmem, ?_⟩
      exact List.forall_mem_append.mpr ⟨hmax, List.forall_mem_singleton.mpr (UInt64.not_lt.mp hgt)⟩

lemma processMacroQc (h : LockHeld e) (hash : List UInt8 → DigestBytes) (qc : MacroQC)
    (slotQcs : List SlotQC) :
    LockHeld (e.processMacroQc hash qc slotQcs).1 := by
  rcases processMacroQc_cases hash e qc slotQcs with
    ⟨-, heq⟩ | ⟨qcH2, qcH1, ⟨hsuffix, hthree⟩, heq⟩
  · rw [heq]
    exact ⟨Or.inr (h.highestOf_addQc qc), fun q hq => List.mem_append_left _ (h.mem q hq), h.height⟩
  · rw [heq]
    refine ⟨Or.inr (h.highestOf_addQc qc), fun q hq => ?_, fun q hq => ?_⟩
    · cases hq
      exact List.mem_append_left _ (hsuffix.subset (by simp))
    · cases hq
      exact hthree.height₁

end LockHeld

lemma lockHeld_run (calls : List Call) : LockHeld (run hash committee nodeId calls) := by
  induction calls using List.reverseRecOn with
  | nil =>
      exact ⟨Or.inl ⟨rfl, rfl⟩, fun q hq => absurd hq (Option.not_mem_none q),
        fun q hq => absurd hq (Option.not_mem_none q)⟩
  | append_singleton calls call ih =>
      rw [run_append_singleton]
      exact ih.processMacroQc hash call.1 call.2

/-- The highest certificate is followed whatever the calls. -/
lemma LockHeld.advances_of {e : ConsensusEngine} (h : LockHeld e) {call : Call}
    (hlocked : ∀ qc ∈ e.lockedQc, ∃ qc' ∈ (e.processMacroQc hash call.1 call.2).1.lockedQc,
      qc.height ≤ qc'.height)
    (hheight : e.currentHeight ≤ (e.processMacroQc hash call.1 call.2).1.currentHeight) :
    Advances (e.macroQcChain ++ [call.1]) e (e.processMacroQc hash call.1 call.2).1 := by
  have hnext := h.processMacroQc hash call.1 call.2
  have hchain := macroQcChain_processMacroQc hash e call.1 call.2
  have hhigh : HighestOf (e.macroQcChain ++ [call.1])
      (e.processMacroQc hash call.1 call.2).1.highQc := by
    rcases hnext.high with ⟨hempty, -⟩ | hhigh
    · rw [hchain] at hempty
      exact absurd hempty (by simp)
    · rwa [hchain] at hhigh
  refine ⟨hhigh, hlocked, fun qc hqc => ?_, hheight⟩
  obtain ⟨high, hmem, -, hmax⟩ := hhigh
  have hqc' := hnext.mem qc hqc
  rw [hchain] at hqc'
  exact ⟨high, hmem, hmax qc hqc'⟩

/-- A call moves nothing back exactly when the three-chain that it completes, if
any, is not below the current height. -/
lemma LockHeld.advances_iff {e : ConsensusEngine} (h : LockHeld e) (call : Call) :
    Advances (e.macroQcChain ++ [call.1]) e (e.processMacroQc hash call.1 call.2).1 ↔
      ∀ qcH2 qcH1, e.Completes hash qcH2 qcH1 call.1 → e.currentHeight ≤ qcH2.height + 1 := by
  constructor
  · intro hadv qcH2 qcH1 hc
    have hheight := hadv.height
    rw [processMacroQc_of_completes hc] at hheight
    exact hheight
  · intro hcond
    rcases processMacroQc_cases hash e call.1 call.2 with
      ⟨-, heq⟩ | ⟨qcH2, qcH1, hcompletes, heq⟩
    · exact h.advances_of (by rw [heq]; exact fun qc hqc => ⟨qc, hqc, UInt64.le_refl _⟩)
        (by rw [heq]; exact UInt64.le_refl _)
    · have hle := hcond qcH2 qcH1 hcompletes
      refine h.advances_of (fun qc hqc => ⟨qcH1, by rw [heq]; rfl, ?_⟩) (by rw [heq]; exact hle)
      rw [h.height qc hqc, hcompletes.2.height₁]
      exact hle

/-- The current height is zero or follows the first certificate of a three-chain
received in consecutive calls. -/
lemma currentHeight_run (calls : List Call) :
    (run hash committee nodeId calls).currentHeight = 0 ∨
      ∃ q0 q1 q2, Received hash (calls.map Prod.fst) q0 q1 q2 ∧
        (run hash committee nodeId calls).currentHeight = q0.height + 1 := by
  induction calls using List.reverseRecOn with
  | nil => exact Or.inl rfl
  | append_singleton calls call ih =>
      rw [run_append_singleton, List.map_append, List.map_singleton]
      rcases processMacroQc_cases hash (run hash committee nodeId calls) call.1 call.2 with
        ⟨-, heq⟩ | ⟨qcH2, qcH1, hcompletes, heq⟩
      · rw [heq]
        refine ih.imp_right ?_
        rintro ⟨q0, q1, q2, hreceived, hheight⟩
        exact ⟨q0, q1, q2, received_append_singleton.mpr (Or.inr hreceived), hheight⟩
      · rw [heq]
        obtain ⟨hsuffix, hthree⟩ := completes_run_iff.mp hcompletes
        exact Or.inr ⟨qcH2, qcH1, call.1,
          received_append_singleton.mpr (Or.inl ⟨hsuffix, hthree, rfl⟩), rfl⟩

/-- As long as the current height does not go back, it is above the first
certificates of all three-chains received in consecutive calls. -/
lemma le_currentHeight_run {calls : List Call}
    (hmono : ForallSplit (fun pre call => (run hash committee nodeId pre).currentHeight ≤
      (run hash committee nodeId (pre ++ [call])).currentHeight) calls)
    {q0 q1 q2 : MacroQC} (hreceived : Received hash (calls.map Prod.fst) q0 q1 q2) :
    q0.height + 1 ≤ (run hash committee nodeId calls).currentHeight := by
  induction calls using List.reverseRecOn with
  | nil => exact absurd hreceived received_nil
  | append_singleton calls call ih =>
      rw [forallSplit_append_singleton] at hmono
      rw [List.map_append, List.map_singleton, received_append_singleton] at hreceived
      rcases hreceived with ⟨hsuffix, hthree, -⟩ | hreceived
      · rw [run_append_singleton,
          processMacroQc_of_completes (completes_run_iff.mpr ⟨hsuffix, hthree⟩)]
        exact UInt64.le_refl _
      · exact UInt64.le_trans (ih hmono.1 hreceived) hmono.2

/-- **The locks advance**: over every sequence of calls `high_qc` is a highest
certificate and `locked_qc` is not above it, and neither `locked_qc` nor
`current_height` goes back, exactly when no certificate completes a three-chain
with the two received right before it that starts below a three-chain received in
consecutive calls before. -/
theorem locks_advance_iff (hash : List UInt8 → DigestBytes) (committee : Committee)
    (nodeId : NodeId) (calls : List Call) :
    ForallSplit (fun pre call => Advances ((pre ++ [call]).map Prod.fst)
        (run hash committee nodeId pre) (run hash committee nodeId (pre ++ [call]))) calls ↔
      ForallSplit (fun pre call =>
        ∀ qcH2 qcH1, [qcH2, qcH1] <:+ pre.map Prod.fst → ThreeChain hash qcH2 qcH1 call.1 →
          ∀ q0 q1 q2, Received hash (pre.map Prod.fst) q0 q1 q2 →
            q0.height + 1 ≤ qcH2.height + 1) calls := by
  -- one call: only a completed three-chain moves the lock and the height
  have hstep (pre : List Call) (call : Call) :
      Advances ((pre ++ [call]).map Prod.fst) (run hash committee nodeId pre)
          (run hash committee nodeId (pre ++ [call])) ↔
        ∀ qcH2 qcH1, [qcH2, qcH1] <:+ pre.map Prod.fst → ThreeChain hash qcH2 qcH1 call.1 →
          (run hash committee nodeId pre).currentHeight ≤ qcH2.height + 1 := by
    have hheld : LockHeld (run hash committee nodeId pre) := lockHeld_run pre
    have hadvances := @LockHeld.advances_iff hash _ hheld call
    simp only [completes_run_iff, and_imp] at hadvances
    rw [run_append_singleton, ← hadvances, macroQcChain_run, List.map_append, List.map_singleton]
  constructor
  · intro hadvances pre call post hsplit qcH2 qcH1 hsuffix hthree q0 q1 q2 hreceived
    have hle := (hstep pre call).mp (hadvances pre call post hsplit) qcH2 qcH1 hsuffix hthree
    refine UInt64.le_trans (le_currentHeight_run ?_ hreceived) hle
    rw [hsplit] at hadvances
    exact fun pre' call' post' h => (hadvances.of_append pre' call' post' h).height
  · intro hreceived pre call post hsplit
    refine (hstep pre call).mpr fun qcH2 qcH1 hsuffix hthree => ?_
    -- the current height was set by one of the three-chains received
    have hcurrent : (run hash committee nodeId pre).currentHeight = 0 ∨ _ := currentHeight_run pre
    rcases hcurrent with hzero | ⟨q0, q1, q2, hchain, hheight⟩
    · rw [hzero]
      exact UInt64.zero_le
    · rw [hheight]
      exact hreceived pre call post hsplit qcH2 qcH1 hsuffix hthree q0 q1 q2 hchain

/-- Four certificates of one branch, the first three of which are received
again: the lock goes back from height 2 to height 1. -/
theorem lock_goes_back :
    let e := run Protocol.polynomialHash Protocol.fourNodes.committee 0 (branchCalls [0, 1, 2, 3])
    let e' := run Protocol.polynomialHash Protocol.fourNodes.committee 0
      (branchCalls [0, 1, 2, 3, 0, 1, 2])
    e.lockedQc.map MacroQC.height = some 2 ∧ e.currentHeight = 2 ∧
      e'.lockedQc.map MacroQC.height = some 1 ∧ e'.currentHeight = 1 := by
  decide +kernel

end StablecoinSystem.ControlPlane.ConsensusEngine
