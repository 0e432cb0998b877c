import StablecoinSystem.Narwhal.Chain

/-!
The blocks that an order of delivery prepares.

Which leader rounds are prepared, and with which leaders, depends on the order
in which certificates arrive and on nothing else: commits do not touch the
rounds that are looked at, as long as no sum with the depth of the garbage
collector overflows. `plan` computes the blocks from the order alone.

* `scheduled_run`: the blocks that a replica has committed and prepared are
  those of the plan, and two of them at least are not committed.
-/

namespace StablecoinSystem

open MP3Consensus

/-- The certificates delivered, the last round prepared and the blocks
prepared. -/
structure Plan where
  dag : List Certificate
  lastPreparedRound : ℕ
  blocks : List MacroBlock

namespace MP3Consensus

variable (con : MP3Consensus)

/-- What a delivery adds to the plan. -/
def planNext (plan : Plan) (c : Certificate) : Plan :=
  match con.nextBlock (insertCertificate c plan.dag) plan.lastPreparedRound plan.blocks.length
      c.round with
  | none => { plan with dag := insertCertificate c plan.dag }
  | some block => ⟨insertCertificate c plan.dag, block.round, plan.blocks ++ [block]⟩

/-- The plan of an order of delivery. -/
def plan (order : List Certificate) : Plan := order.foldl con.planNext ⟨con.genesis, 0, []⟩

/-- The blocks of an order of delivery that have two blocks after them. -/
def committable (order : List Certificate) : List MacroBlock :=
  (con.plan order).blocks.take ((con.plan order).blocks.length - 2)

end MP3Consensus

variable {con : MP3Consensus} {plan : Plan} {r : Replica} {c : Certificate} {block : MacroBlock}

/-- The replica has committed or prepared the blocks of the plan, two of them
prepared if some are committed, and has the rounds above the last committed
one as they were delivered. -/
structure Scheduled (con : MP3Consensus) (plan : Plan) (r : Replica) : Prop where
  prepared : r.lastPreparedRound = plan.lastPreparedRound
  height : r.state.nextHeight = plan.blocks.length
  blocks : r.committed ++ r.state.preparedChain = plan.blocks
  waiting : r.committed ≠ [] → 2 ≤ r.state.preparedChain.length
  dag : ∀ round, r.state.lastCommittedRound < round → round + con.gcDepth < 2 ^ 64 →
    atRound round r.state.dag = atRound round plan.dag

namespace MP3Consensus

/-- The supported leaders of a round depend on two rounds of the dag. -/
lemma supportedLeaders_congr {dag dag' : List Certificate} {round : ℕ}
    (hleaders : atRound round dag = atRound round dag')
    (hsupport : atRound (round + 1) dag = atRound (round + 1) dag') :
    con.supportedLeaders round dag = con.supportedLeaders round dag' := by
  have helect : con.electSlot round dag = con.electSlot round dag' := by
    funext elected slot
    simp only [electSlot, certificateOf, hleaders]
  rw [supportedLeaders, supportedLeaders, slotLeaders, slotLeaders, helect]
  refine List.filter_congr fun leader _ => ?_
  rw [support, support, supportStake, supportStake, hsupport]

/-- So does the next block. -/
lemma nextBlock_congr {dag dag' : List Certificate} {lastPreparedRound height round : ℕ}
    (hleaders : atRound (round - 1) dag = atRound (round - 1) dag')
    (hsupport : atRound round dag = atRound round dag') :
    con.nextBlock dag lastPreparedRound height round =
      con.nextBlock dag' lastPreparedRound height round := by
  rw [nextBlock, nextBlock]
  split
  · rfl
  · have hround : round - 1 + 1 = round := by omega
    rw [supportedLeaders_congr hleaders (hround.symm ▸ hsupport)]

/-- Committing sub-dags does not touch the rounds above the last committed
one. -/
lemma atRound_sendAll {p : State × List Sent} (hp : p.1.Wf) (flattened : State)
    (xs : List Certificate) {round : ℕ} (hfits : round + con.gcDepth < 2 ^ 64)
    (h : (con.sendAll flattened p xs).1.lastCommittedRound < round) :
    atRound round (con.sendAll flattened p xs).1.dag = atRound round p.1.dag := by
  refine (sendAll_induction (I := fun _ p' => p'.1.Wf ∧ (p'.1.lastCommittedRound < round →
    atRound round p'.1.dag = atRound round p.1.dag)) ⟨hp, fun _ => rfl⟩ ?_).2 h
  rintro pre x post p' - ⟨hp', hI⟩
  refine ⟨State.wf_commit hp' _ _, fun hlt => ?_⟩
  rw [State.atRound_commit hp' (fun _ _ _ => hfits) hlt]
  exact hI (lt_of_le_of_lt (le_max_left _ _) hlt)

lemma lastCommittedRound_le_sendAll (flattened : State) (p : State × List Sent)
    (xs : List Certificate) :
    p.1.lastCommittedRound ≤ (con.sendAll flattened p xs).1.lastCommittedRound :=
  sendAll_induction (I := fun _ p' => p.1.lastCommittedRound ≤ p'.1.lastCommittedRound) (le_refl _)
    fun _ _ _ _ _ hI => le_trans hI (le_max_left _ _)

end MP3Consensus

/-- What commits lead to from a state: the last committed round has not
decreased, and nothing has changed above it. -/
structure Unchanged (con : MP3Consensus) (before after : State) : Prop where
  lastCommittedRound_le : before.lastCommittedRound ≤ after.lastCommittedRound
  dag : ∀ round, after.lastCommittedRound < round → round + con.gcDepth < 2 ^ 64 →
    atRound round after.dag = atRound round before.dag

lemma Unchanged.sendAll {before : State} {p : State × List Sent} (h : Unchanged con before p.1)
    (hp : p.1.Wf) (xs : List Certificate) : Unchanged con before (con.sendAll p.1 p xs).1 := by
  have hle := con.lastCommittedRound_le_sendAll p.1 p xs
  refine ⟨le_trans h.lastCommittedRound_le hle, fun round hround hfits => ?_⟩
  exact (atRound_sendAll hp _ _ hfits hround).trans
    (h.dag round (lt_of_le_of_lt hle hround) hfits)

namespace Scheduled

lemma insert (h : Scheduled con plan r) (c : Certificate) :
    Scheduled con { plan with dag := insertCertificate c plan.dag } (r.insert c) :=
  { h with
    dag := fun round hround hfits => atRound_insertCertificate (h.dag round hround hfits) c }

lemma prepare {delivered : List Certificate} (h : Scheduled con plan r)
    (hr : Chained con delivered r) (hheight : block.height = r.state.nextHeight) :
    Scheduled con ⟨plan.dag, block.round, plan.blocks ++ [block]⟩ (r.prepare block) where
  prepared := rfl
  height := by
    rw [List.length_append, ← h.height]
    rfl
  blocks := by
    rw [hr.preparedChain_prepare hheight, ← h.blocks, List.append_assoc]
    rfl
  waiting := fun hne => by
    rw [hr.preparedChain_prepare hheight, List.length_append]
    exact le_trans (h.waiting hne) (Nat.le_add_right _ _)
  dag := h.dag

lemma commit {delivered : List Certificate} {b b' : MacroBlock} {rest : List MacroBlock}
    {s : State} {sequence : List Sent} (h : Scheduled con plan r) (hr : Chained con delivered r)
    (hchain : r.state.preparedChain = block :: b :: b' :: rest)
    (hblock : con.commitBlock { r.state with preparedChain := b :: b' :: rest } block =
      some (s, sequence)) : Scheduled con plan (r.commit s sequence block) := by
  obtain ⟨hp, hunchanged⟩ := hr.commit_induction (I := fun _ p => Unchanged con r.state p.1) hchain
    ⟨le_refl _, fun _ _ _ => rfl⟩ (fun _ _ _ xs hp hI _ => hI.sendAll hp.wf xs)
    (fun _ _ _ _ xs _ hp hI _ => hI.sendAll hp.wf xs) hblock
  have hs : s.preparedChain = b :: b' :: rest := hp.chain
  refine ⟨h.prepared, hp.height.trans h.height, ?_, fun _ => ?_, fun round hround hfits => ?_⟩
  · rw [← h.blocks, hchain, Replica.commit, hs, List.append_assoc]
    rfl
  · rw [Replica.commit, hs]
    exact Nat.le_add_left 2 _
  · exact (hunchanged.dag round hround hfits).trans
      (h.dag round (lt_of_le_of_lt hunchanged.lastCommittedRound_le hround) hfits)

/-- The blocks committed have two blocks after them. -/
lemma prefix_take (h : Scheduled con plan r) :
    r.committed <+: plan.blocks.take (plan.blocks.length - 2) := by
  by_cases hnone : r.committed = []
  · rw [hnone]
    exact List.nil_prefix
  · have hlen := h.waiting hnone
    rw [List.prefix_take_iff, ← h.blocks]
    refine ⟨List.prefix_append _ _, ?_⟩
    rw [List.length_append]
    omega

end Scheduled

namespace MP3Consensus

lemma plan_append_singleton (order : List Certificate) (c : Certificate) :
    con.plan (order ++ [c]) = con.planNext (con.plan order) c :=
  List.foldl_append

/-- A plan grows at its end. -/
lemma blocks_prefix_planNext (plan : Plan) (c : Certificate) :
    plan.blocks <+: (con.planNext plan c).blocks := by
  rw [planNext]
  split
  · exact List.prefix_refl _
  · exact List.prefix_append _ _

lemma committable_mono (order : List Certificate) (c : Certificate) :
    con.committable order <+: con.committable (order ++ [c]) := by
  have hblocks := con.blocks_prefix_planNext (con.plan order) c
  rw [← plan_append_singleton] at hblocks
  refine List.prefix_take_iff.mpr ⟨(List.take_prefix _ _).trans hblocks, ?_⟩
  have hlen := hblocks.length_le
  rw [committable, List.length_take]
  omega

lemma nextBlock_eq_none_of_le {dag : List Certificate} {lastPreparedRound height round : ℕ}
    (h : round - 1 ≤ lastPreparedRound) :
    con.nextBlock dag lastPreparedRound height round = none := by
  rw [nextBlock]
  simp [h]

/-- A replica that has not committed the leader round of a certificate prepares
for it what the plan does. -/
lemma nextBlock_eq_plan {plan : Plan} {r : Replica} (h : Scheduled con plan r) {c : Certificate}
    (hround : r.state.lastCommittedRound < c.round - 1) (hfits : c.round + con.gcDepth < 2 ^ 64) :
    con.nextBlock (insertCertificate c plan.dag) plan.lastPreparedRound plan.blocks.length c.round =
      con.nextBlock (r.insert c).state.dag r.lastPreparedRound r.state.nextHeight c.round := by
  rw [h.prepared, h.height]
  refine nextBlock_congr ?_ ?_
  · exact (atRound_insertCertificate (h.dag _ hround (by omega)) c).symm
  · exact (atRound_insertCertificate (h.dag _ (by omega) hfits) c).symm

/-- **A replica commits and prepares the blocks of the plan**, until it
halts. -/
theorem scheduled_run (con : MP3Consensus) (order : List Certificate)
    (hfits : ∀ c ∈ order, c.round + con.gcDepth < 2 ^ 64) :
    (con.run order).committed <+: con.committable order ∧
      ((con.run order).halted = false → Scheduled con (con.plan order) (con.run order)) := by
  refine foldl_induction (I := fun order r => r.committed <+: con.committable order ∧
    (r.halted = false → Scheduled con (con.plan order) r)) ?_ ?_
  · exact ⟨List.nil_prefix, fun _ => ⟨rfl, rfl, rfl, fun h => absurd rfl h, fun _ _ _ => rfl⟩⟩
  rintro pre c post hsplit ⟨hcommitted, hscheduled⟩
  have hc := hfits c (mem_of_split hsplit)
  have hchained := chained_run con pre
  change (con.run pre).committed <+: _ at hcommitted
  change (con.run pre).halted = false → Scheduled con _ (con.run pre) at hscheduled
  change (con.receive (con.run pre) c).committed <+: _ ∧ ((con.receive (con.run pre) c).halted =
    false → Scheduled con _ (con.receive (con.run pre) c))
  generalize con.run pre = r at hchained hcommitted hscheduled ⊢
  -- The replica had halted; it only inserts; it halts on the leaders; it prepares a block.
  rcases receive_cases con r c with ⟨hhalted, heq⟩ | ⟨hrunning, heq, hnone⟩ | ⟨-, heq, -⟩ |
    ⟨block, hrunning, hround, hblock, heq⟩
  · rw [heq]
    refine ⟨hcommitted.trans (committable_mono pre c), fun hrunning => ?_⟩
    rw [hhalted] at hrunning
    cases hrunning
  · have h := hscheduled hrunning
    have hplan : con.plan (pre ++ [c]) =
        { con.plan pre with dag := insertCertificate c (con.plan pre).dag } := by
      rw [plan_append_singleton, planNext]
      -- The plan keeps the whole dag, so it may only differ where the replica has committed.
      by_cases hle : c.round - 1 ≤ r.state.lastCommittedRound
      · rw [nextBlock_eq_none_of_le (le_trans hle (h.prepared ▸ hchained.le_prepared))]
      · rw [nextBlock_eq_plan h (not_le.mp hle) hc, hnone.resolve_left hle]
    rw [heq, committable, hplan]
    exact ⟨(h.insert c).prefix_take, fun _ => h.insert c⟩
  · rw [heq]
    exact ⟨hcommitted.trans (committable_mono pre c), fun hrunning => by cases hrunning⟩
  · have h := hscheduled hrunning
    have hplan : con.plan (pre ++ [c]) =
        ⟨insertCertificate c (con.plan pre).dag, block.round, (con.plan pre).blocks ++ [block]⟩ := by
      rw [plan_append_singleton, planNext, nextBlock_eq_plan h hround hc, hblock]
    have hprepared : Scheduled con (con.plan (pre ++ [c])) ((r.insert c).prepare block) := by
      rw [hplan]
      refine (h.insert c).prepare (hchained.insert c) ?_
      obtain ⟨-, -, rfl⟩ := nextBlock_eq_some hblock
      rfl
    have hrunning' : ((r.insert c).prepare block).halted = false := hrunning
    rw [heq]
    -- The blocks that the new one commits are a further prefix of the plan.
    refine (commitChain_induction (I := fun r => Chained con (pre ++ [c]) r ∧
      r.committed <+: con.committable (pre ++ [c]) ∧
        (r.halted = false → Scheduled con (con.plan (pre ++ [c])) r)) ?_ ?_ hrunning'
      ⟨(hchained.insert c).prepare hround hblock, hprepared.prefix_take, fun _ => hprepared⟩).2
    · rintro r block b b' rest s sequence ⟨hr, -, hI⟩ hrun hchain hcommit
      have hcommit' := (hI hrun).commit hr hchain hcommit
      exact ⟨hr.commit hchain hcommit, hcommit'.prefix_take, fun _ => hcommit'⟩
    · rintro r ⟨hr, hpre, -⟩
      exact ⟨hr.halt, hpre, fun hrun => by cases hrun⟩

end MP3Consensus

end StablecoinSystem
