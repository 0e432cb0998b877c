import StablecoinSystem.Narwhal.Plan
import StablecoinSystem.Narwhal.Progress

/-!
The prepared chain between two certificates.

The blocks of a plan are numbered by their heights, and a replica that runs
commits and prepares the blocks of its plan, so the committed and the prepared
blocks are numbered through. The slot leaders of a committed block are the last
of their sub-dags, so its round becomes the last committed one, unless the sum of
the round and the depth of the garbage collector overflows.

* `heights_plan`: the blocks of a plan have the heights 0, 1, 2, …;
* `lastCommittedRound_commitBlock`: what a commit makes of the last committed
  round;
* `length_commitChain_le`: the loop that commits leaves two blocks;
* `prepared_run`: the invariant of the chain, after any sequence of
  certificates for which no sum overflows;
* `committed_round_wraps`: a history for which one does.
-/

namespace StablecoinSystem

namespace MP3Consensus

variable {con : MP3Consensus} {s : State} {p : State × List Sent} {x leader : Certificate}
  {xs order delivered : List Certificate} {r : Replica} {block : MacroBlock}

/-! ### The blocks of a plan -/

/-- The blocks of a plan are numbered by their heights. -/
lemma heights_plan (con : MP3Consensus) (order : List Certificate) :
    (con.plan order).blocks.map MacroBlock.height =
      List.range (con.plan order).blocks.length := by
  refine foldl_induction (f := con.planNext) (I := fun _ plan =>
    plan.blocks.map MacroBlock.height = List.range plan.blocks.length) rfl ?_
  intro pre c post _ hheights
  generalize pre.foldl con.planNext ⟨con.genesis, 0, []⟩ = plan at hheights ⊢
  rw [planNext]
  split
  · exact hheights
  · rename_i block hblock
    obtain ⟨-, -, rfl⟩ := nextBlock_eq_some hblock
    rw [List.map_append, hheights, List.map_singleton, List.length_append, List.length_singleton,
      List.range_succ]

/-! ### The last committed round -/

/-- **After a block is committed, its round is the last committed one.** -/
theorem lastCommittedRound_commitBlock {rest : List MacroBlock} {s : State} {sequence : List Sent}
    (hr : Chained con delivered r)
    (hfits : ∀ c ∈ con.genesis ++ delivered, c.round + con.gcDepth < 2 ^ 64)
    (hchain : r.state.preparedChain = block :: rest) (hne : block.slotQc.leaders ≠ [])
    (hblock : con.commitBlock { r.state with preparedChain := rest } block = some (s, sequence)) :
    s.lastCommittedRound = block.round := by
  have hmem : block ∈ r.state.preparedChain := by simp [hchain]
  -- the round is reached with the first slot leader and kept from there on
  have hinv := hr.commit_induction (I := fun done p => done ≠ [] →
    block.round ≤ p.1.lastCommittedRound) hchain (fun h => absurd rfl h) ?_ ?_ hblock
  · exact le_antisymm hinv.1.le_bound (hinv.2 hne)
  · intro done p q xs _ hI _ hdone
    exact le_trans (hI hdone) (con.lastCommittedRound_le_sendAll p.1 p xs)
  · intro done l post p xs hsplit hp _ hxs _
    have hround : l.round = block.round := hr.leaders block hmem l (mem_of_split hsplit)
    have hle : p.1.lastCommittedRound ≤ l.round + con.gcDepth := by
      have hbound := hp.le_bound
      omega
    have hl := hfits l (hr.delivered_of_leader block hmem l (mem_of_split hsplit))
    exact hround ▸ round_le_sendAll p.1 p (leader_mem_orderDag hxs hle hl)

/-- The last committed round is that of the last committed block. -/
lemma lastCommittedRound_run (con : MP3Consensus) (order : List Certificate)
    (hfits : ∀ c ∈ con.genesis ++ order, c.round + con.gcDepth < 2 ^ 64) :
    (con.run order).state.lastCommittedRound =
      ((con.run order).committed.getLast?.map MacroBlock.round).getD 0 := by
  have hpre : ∀ {pre : List Certificate} {c : Certificate},
      (∀ x ∈ con.genesis ++ (pre ++ [c]), x.round + con.gcDepth < 2 ^ 64) →
        ∀ x ∈ con.genesis ++ pre, x.round + con.gcDepth < 2 ^ 64 := by
    intro pre c hfits x hx
    exact hfits x (by
      rw [← List.append_assoc]
      exact List.mem_append_left _ hx)
  -- Blocks without leaders would raise nothing, so the invariant says there are none.
  refine ((run_induction_of (C := fun _ _ => True) (I := fun pre r =>
    (∀ x ∈ con.genesis ++ pre, x.round + con.gcDepth < 2 ^ 64) →
      (∀ b ∈ r.state.preparedChain, b.slotQc.leaders ≠ []) ∧
        r.state.lastCommittedRound = (r.committed.getLast?.map MacroBlock.round).getD 0)
    (fun _ => ⟨fun _ hb => absurd hb List.not_mem_nil, rfl⟩)
    (fun _ _ _ _ hI hfits => hI (hpre hfits)) (fun _ _ _ _ _ hI _ hfits => hI (hpre hfits)) ?_ ?_
    (fun _ _ hI => hI) fun _ _ _ _ => trivial).2 hfits).2
  · intro pre round r block hr hI hblock hfits
    obtain ⟨hleaders, hlast⟩ := hI hfits
    obtain ⟨-, hne, rfl⟩ := nextBlock_eq_some hblock
    refine ⟨?_, hlast⟩
    rw [hr.preparedChain_prepare rfl]
    exact List.forall_mem_append.mpr ⟨hleaders, List.forall_mem_singleton.mpr hne⟩
  · intro pre r block rest s sequence _ hr hI hchain hblock hfits
    have hleaders := (hI hfits).1
    have hs : s.preparedChain = rest := (hr.committing hchain hblock).1.chain
    rw [hchain] at hleaders
    refine ⟨?_, ?_⟩
    · rw [Replica.commit, hs]
      exact fun b hb => hleaders b (List.mem_cons_of_mem _ hb)
    · rw [Replica.commit, List.getLast?_concat]
      exact lastCommittedRound_commitBlock hr hfits hchain
        (hleaders block (List.mem_cons_self ..)) hblock

/-! ### The length of the chain -/

/-- The loop that commits leaves two blocks, if it is given the fuel. -/
lemma length_commitChain_le {fuel : ℕ} (hr : Chained con delivered r)
    (hfuel : r.state.preparedChain.length ≤ fuel + 2)
    (hrunning : (con.commitChain fuel r).halted = false) :
    (con.commitChain fuel r).state.preparedChain.length ≤ 2 := by
  induction fuel generalizing r with
  | zero => exact hfuel
  | succ fuel ih =>
      revert hrunning
      rw [commitChain]
      split
      · rename_i block b b' rest hchain
        split
        · exact fun hrunning => by cases hrunning
        · rename_i s sequence hblock
          refine ih (hr.commit hchain hblock) ?_
          have hs : s.preparedChain = b :: b' :: rest := (hr.committing hchain hblock).1.chain
          rw [hchain] at hfuel
          rw [Replica.commit, hs]
          exact Nat.le_of_succ_le_succ hfuel
      · rename_i hshort
        intro _
        rcases hchain : r.state.preparedChain with _ | ⟨block, _ | ⟨b, _ | ⟨b', rest⟩⟩⟩
        · exact Nat.zero_le 2
        · exact Nat.le_succ 1
        · exact le_refl 2
        · exact absurd hchain (hshort block b b' rest)

/-- After each certificate, the chain has at most two blocks. -/
lemma length_preparedChain_run_le (con : MP3Consensus) (order : List Certificate)
    (hrunning : (con.run order).halted = false) :
    (con.run order).state.preparedChain.length ≤ 2 := by
  refine foldl_induction (f := con.receive) (b := con.start) (I := fun _ r =>
    r.halted = false → r.state.preparedChain.length ≤ 2) (fun _ => Nat.zero_le 2) ?_ hrunning
  intro pre c post _ hI
  have hr := chained_run con pre
  change (con.run pre).halted = false → (con.run pre).state.preparedChain.length ≤ 2 at hI
  change (con.receive (con.run pre) c).halted = false →
    (con.receive (con.run pre) c).state.preparedChain.length ≤ 2
  rcases receive_cases con (con.run pre) c with ⟨-, heq⟩ | ⟨-, heq, -⟩ | ⟨-, heq, -⟩ |
    ⟨block, -, hlcr, hblock, heq⟩
  · rw [heq]
    exact hI
  · rw [heq]
    exact hI
  · rw [heq]
    exact fun hrunning => by cases hrunning
  · rw [heq]
    refine length_commitChain_le ((hr.insert c).prepare hlcr hblock) ?_
    obtain ⟨-, -, rfl⟩ := nextBlock_eq_some hblock
    rw [(hr.insert c).preparedChain_prepare rfl, List.length_append]
    exact Nat.le_add_right _ _

end MP3Consensus

open MP3Consensus

/-! ### The invariant of the chain -/

/-- The chain between two certificates: the blocks committed are those of
heights 0, 1, 2, …, the last of them is of the last committed round, and the
prepared ones, two at most, have the heights that follow and rising rounds. The
block that a certificate would prepare continues the chain. -/
structure Prepared (con : MP3Consensus) (r : Replica) : Prop where
  committed : r.committed.map MacroBlock.height = List.range r.committed.length
  lastCommitted : r.state.lastCommittedRound =
    (r.committed.getLast?.map MacroBlock.round).getD 0
  length_le : r.state.preparedChain.length ≤ 2
  heights : r.state.preparedChain.map MacroBlock.height =
    List.range' r.committed.length r.state.preparedChain.length
  nextHeight : r.state.nextHeight = r.committed.length + r.state.preparedChain.length
  rounds : (r.state.preparedChain.map MacroBlock.round).Pairwise (· < ·)
  above : ∀ b ∈ r.state.preparedChain, r.state.lastCommittedRound < b.round
  below : ∀ b ∈ r.state.preparedChain, b.round ≤ r.lastPreparedRound
  unbroken : ∀ c block, con.nextBlock (r.insert c).state.dag r.lastPreparedRound
    r.state.nextHeight c.round = some block →
      ∀ tail ∈ r.state.preparedChain.getLast?, block.height = tail.height + 1

namespace MP3Consensus

/-- **The invariant of the prepared chain**, after any sequence of certificates
for which no sum overflows and on which the task has not panicked, in particular any
admissible one. -/
theorem prepared_run (con : MP3Consensus) (order : List Certificate) (hfits : con.Fits order) :
    ((con.run order).halted = false → Prepared con (con.run order)) ∧
      (con.Admissible order → (con.run order).halted = false) := by
  refine ⟨fun hrunning => ?_, fun h => (grounded_run h hfits).2⟩
  have hr := chained_run con order
  have hplan := (scheduled_run con order fun c hc =>
    hfits.depth c (List.mem_append_right _ hc)).2 hrunning
  have hheights := heights_plan con order
  rw [← hplan.blocks, List.map_append, List.length_append, List.range_add,
    ← List.range'_eq_map_range] at hheights
  obtain ⟨hcommitted, hprepared⟩ := List.append_inj hheights (by simp)
  constructor
  · exact hcommitted
  · exact lastCommittedRound_run con order hfits.depth
  · exact length_preparedChain_run_le con order hrunning
  · exact hprepared
  · rw [hplan.height, ← hplan.blocks, List.length_append]
  · exact hr.rounds
  · exact hr.above
  · exact hr.below
  · intro c block hblock tail htail
    obtain ⟨-, -, rfl⟩ := nextBlock_eq_some hblock
    exact (hr.heights tail htail).symm

theorem prepared_soloChain : twoAuthorities.Admissible (soloChain 6) ∧
    Prepared twoAuthorities (twoAuthorities.run (soloChain 6)) ∧
    (twoAuthorities.run (soloChain 6)).state.preparedChain.map MacroBlock.height = [1, 2] := by
  have hadmissible : twoAuthorities.Admissible (soloChain 6) := by decide +kernel
  have h := prepared_run twoAuthorities (soloChain 6) (by decide +kernel)
  exact ⟨hadmissible, h.1 (h.2 hadmissible), by decide +kernel⟩

/-- If the sum of the round and the depth wraps, the leader of a committed block is not
in its own sub-dag, and the last committed round stays below that of the block. With
overflow checks the task panics. -/
theorem committed_round_wraps : wideDepth.Admissible (soloChain 8) ∧
    (wideDepth.run (soloChain 8)).halted = false ∧
    (wideDepth.run (soloChain 8)).committed.map MacroBlock.round = [1, 3] ∧
    (wideDepth.run (soloChain 8)).state.lastCommittedRound = 2 ∧
    (wideDepthChecked.run (soloChain 8)).halted = true := by
  decide +kernel

end MP3Consensus

end StablecoinSystem
