import StablecoinSystem.Narwhal.Flatten

/-!
The prepared chain of a replica.

* `Chained`: the prepared rounds rise above the last committed round, and each
  block holds distinct leaders of its round;
* `chained_run`: every run keeps it;
* `run_induction_of`: the rule for further invariants, for which inserting a
  certificate, preparing a block, committing one and halting are considered
  one by one.
-/

namespace StablecoinSystem

namespace MP3Consensus

variable {con : MP3Consensus} {r : Replica} {c : Certificate}

/-! ### Slot leaders -/

/-- A slot adds no leader, or the certificate of an authority that has none. -/
lemma electSlot_cases (con : MP3Consensus) (round : ℕ) (dag : List Certificate)
    (elected : List Certificate × List ℕ) (slot : ℕ) :
    con.electSlot round dag elected slot = elected ∨
      ∃ l, l ∈ dag ∧ l.round = round ∧ l.origin ∉ elected.2 ∧
        con.electSlot round dag elected slot = (elected.1 ++ [l], elected.2 ++ [l.origin]) := by
  rw [electSlot]
  split
  · exact Or.inl rfl
  · split
    · exact Or.inl rfl
    · rename_i hkey
      split
      · exact Or.inl rfl
      · rename_i l hl
        obtain ⟨hdag, hround, rfl⟩ := mem_of_certificateOf hl
        exact Or.inr ⟨l, hdag, hround, hkey, rfl⟩

/-- The slot leaders are certificates of the round, of distinct origins. -/
lemma slotLeaders_spec (con : MP3Consensus) (round : ℕ) (dag : List Certificate) :
    (∀ l ∈ con.slotLeaders round dag, l ∈ dag ∧ l.round = round) ∧
      ((con.slotLeaders round dag).map Certificate.origin).Nodup := by
  have h := foldl_induction (f := con.electSlot round dag) (b := ([], []))
    (l := List.range con.slots)
    (I := fun _ elected => (∀ l ∈ elected.1, l ∈ dag ∧ l.round = round) ∧
      elected.2.Nodup ∧ elected.2 = elected.1.map Certificate.origin)
    ⟨fun _ hl => absurd hl List.not_mem_nil, List.nodup_nil, rfl⟩ ?_
  · exact ⟨h.1, h.2.2 ▸ h.2.1⟩
  rintro pre slot post - ⟨hmem, hnodup, hused⟩
  rcases electSlot_cases con round dag (pre.foldl (con.electSlot round dag) ([], [])) slot with
    hsame | ⟨l, hdag, hround, hnew, heq⟩
  · rw [hsame]
    exact ⟨hmem, hnodup, hused⟩
  · rw [heq]
    refine ⟨List.forall_mem_append.mpr ⟨hmem, List.forall_mem_singleton.mpr ⟨hdag, hround⟩⟩, ?_, ?_⟩
    · exact hnodup.append (List.nodup_singleton _) (List.disjoint_singleton.mpr hnew)
    · rw [List.map_append, hused, List.map_singleton]

lemma mem_of_mem_supportedLeaders {round : ℕ} {dag : List Certificate} {l : Certificate}
    (h : l ∈ con.supportedLeaders round dag) : l ∈ dag ∧ l.round = round :=
  (slotLeaders_spec con round dag).1 l (List.mem_of_mem_filter h)

lemma nodup_supportedLeaders (con : MP3Consensus) (round : ℕ) (dag : List Certificate) :
    (con.supportedLeaders round dag).Nodup :=
  (slotLeaders_spec con round dag).2.of_map.filter _

end MP3Consensus

/-! ### The invariant of the chain -/

open MP3Consensus

/-- The prepared blocks: their rounds rise, above the last committed round and
up to the last prepared one, their heights end below the next one, and their
leaders are distinct certificates of their round. They and the dag hold nothing
but the genesis and what has been delivered. -/
structure Chained (con : MP3Consensus) (delivered : List Certificate) (r : Replica) : Prop where
  wf : r.state.Wf
  rounds : (r.state.preparedChain.map MacroBlock.round).Pairwise (· < ·)
  above : ∀ b ∈ r.state.preparedChain, r.state.lastCommittedRound < b.round
  below : ∀ b ∈ r.state.preparedChain, b.round ≤ r.lastPreparedRound
  le_prepared : r.state.lastCommittedRound ≤ r.lastPreparedRound
  heights : ∀ b ∈ r.state.preparedChain.getLast?, b.height + 1 = r.state.nextHeight
  leaders : ∀ b ∈ r.state.preparedChain, ∀ l ∈ b.slotQc.leaders, l.round = b.round
  nodup : ∀ b ∈ r.state.preparedChain, b.slotQc.leaders.Nodup
  delivered_of_dag : ∀ c ∈ r.state.dag, c ∈ con.genesis ++ delivered
  delivered_of_leader : ∀ b ∈ r.state.preparedChain, ∀ l ∈ b.slotQc.leaders,
    l ∈ con.genesis ++ delivered

namespace Chained

variable {con : MP3Consensus} {delivered : List Certificate} {r : Replica} {c : Certificate}
  {block : MacroBlock}

lemma mono (hr : Chained con delivered r) (c : Certificate) :
    Chained con (delivered ++ [c]) r :=
  { hr with
    delivered_of_dag := fun x hx => by
      rw [← List.append_assoc]
      exact List.mem_append_left _ (hr.delivered_of_dag x hx)
    delivered_of_leader := fun b hb l hl => by
      rw [← List.append_assoc]
      exact List.mem_append_left _ (hr.delivered_of_leader b hb l hl) }

lemma insert (hr : Chained con delivered r) (c : Certificate) :
    Chained con (delivered ++ [c]) (r.insert c) :=
  { hr.mono c with
    wf := ⟨hr.wf.bounded, hr.wf.attained⟩
    delivered_of_dag := fun x hx => by
      rcases mem_insertCertificate.mp hx with rfl | ⟨hx, -⟩
      · simp
      · exact (hr.mono c).delivered_of_dag x hx }

/-- The chain is never broken. -/
lemma preparedChain_prepare (hr : Chained con delivered r)
    (hheight : block.height = r.state.nextHeight) :
    (r.prepare block).state.preparedChain = r.state.preparedChain ++ [block] := by
  simp only [Replica.prepare]
  cases hlast : r.state.preparedChain.getLast? with
  | none => rfl
  | some tail =>
      have htail := hr.heights tail hlast
      simp [hheight, htail]

lemma prepare (hr : Chained con delivered r) {round : ℕ}
    (hlcr : r.state.lastCommittedRound < round - 1)
    (hblock : con.nextBlock r.state.dag r.lastPreparedRound r.state.nextHeight round =
      some block) : Chained con delivered (r.prepare block) := by
  obtain ⟨hnew, -, rfl⟩ := nextBlock_eq_some hblock
  have hchain : (r.prepare ⟨r.state.nextHeight, round - 1, ⟨round - 1,
      con.supportedLeaders (round - 1) r.state.dag⟩⟩).state.preparedChain = _ :=
    preparedChain_prepare hr rfl
  constructor
  · exact ⟨hr.wf.bounded, hr.wf.attained⟩
  · rw [hchain, List.map_append, List.pairwise_append]
    refine ⟨hr.rounds, List.pairwise_singleton _ _, fun a ha b hb => ?_⟩
    obtain ⟨block, hblock, rfl⟩ := List.mem_map.mp ha
    rw [List.map_singleton, List.mem_singleton] at hb
    exact hb ▸ lt_of_le_of_lt (hr.below block hblock) hnew
  · rw [hchain]
    exact List.forall_mem_append.mpr ⟨hr.above, List.forall_mem_singleton.mpr hlcr⟩
  · rw [hchain]
    exact List.forall_mem_append.mpr ⟨fun b hb => le_trans (hr.below b hb) hnew.le,
      List.forall_mem_singleton.mpr (le_refl _)⟩
  · exact hlcr.le
  · rw [hchain, List.getLast?_append]
    rintro b (_ | _)
    rfl
  · rw [hchain]
    exact List.forall_mem_append.mpr ⟨hr.leaders, List.forall_mem_singleton.mpr fun l hl =>
      (mem_of_mem_supportedLeaders hl).2⟩
  · rw [hchain]
    exact List.forall_mem_append.mpr ⟨hr.nodup, List.forall_mem_singleton.mpr
      (nodup_supportedLeaders con _ _)⟩
  · exact hr.delivered_of_dag
  · rw [hchain]
    exact List.forall_mem_append.mpr ⟨hr.delivered_of_leader, List.forall_mem_singleton.mpr
      fun l hl => hr.delivered_of_dag l (mem_of_mem_supportedLeaders hl).1⟩

/-- The rule for the commit of the oldest block, over the slot leaders that are
done: what is shown is kept by the flattening of any sub-dag, and what is said of
a slot leader holds once its own is flattened. -/
lemma commit_induction {I : List Certificate → State × List Sent → Prop}
    (hr : Chained con delivered r) {rest : List MacroBlock} {s : State} {sequence : List Sent}
    (hchain : r.state.preparedChain = block :: rest)
    (hinit : I [] ({ r.state with preparedChain := rest }, []))
    (hpast : ∀ done p q xs, Committing { r.state with preparedChain := rest } block.round p →
      I done p → con.orderDag p.1 q = some xs → I done (con.sendAll p.1 p xs))
    (hslot : ∀ done l post p xs, block.slotQc.leaders = done ++ l :: post →
      Committing { r.state with preparedChain := rest } block.round p → I done p →
      con.orderDag p.1 l = some xs → I (done ++ [l]) (con.sendAll p.1 p xs))
    (hblock : con.commitBlock { r.state with preparedChain := rest } block = some (s, sequence)) :
    Committing { r.state with preparedChain := rest } block.round (s, sequence) ∧
      I block.slotQc.leaders (s, sequence) := by
  have hmem : block ∈ r.state.preparedChain := by simp [hchain]
  exact commitBlock_induction ⟨hr.wf.bounded, hr.wf.attained⟩ (hr.above block hmem).le
    (hr.leaders block hmem) hinit
    (fun done _ p' q xs _ hp' hI _ _ _ hxs => hpast done p' q xs hp' hI hxs) hslot hblock

/-- The commit of the oldest block keeps the rest of the chain, commits no round
above the block, and adds nothing to the dag. -/
lemma committing (hr : Chained con delivered r) {rest : List MacroBlock} {s : State}
    {sequence : List Sent} (hchain : r.state.preparedChain = block :: rest)
    (hblock : con.commitBlock { r.state with preparedChain := rest } block = some (s, sequence)) :
    Committing { r.state with preparedChain := rest } block.round (s, sequence) ∧
      ∀ c ∈ s.dag, c ∈ r.state.dag :=
  hr.commit_induction (I := fun _ p => ∀ c ∈ p.1.dag, c ∈ r.state.dag) hchain (fun _ hc => hc)
    (fun _ _ _ _ _ hI _ c hc => hI c (mem_dag_of_mem_sendAll hc))
    (fun _ _ _ _ _ _ _ hI _ c hc => hI c (mem_dag_of_mem_sendAll hc)) hblock

lemma commit (hr : Chained con delivered r) {rest : List MacroBlock} {s : State}
    {sequence : List Sent} (hchain : r.state.preparedChain = block :: rest)
    (hblock : con.commitBlock { r.state with preparedChain := rest } block = some (s, sequence)) :
    Chained con delivered (r.commit s sequence block) := by
  have hmem : block ∈ r.state.preparedChain := by simp [hchain]
  have hrest : ∀ b ∈ rest, b ∈ r.state.preparedChain := fun b hb => by simp [hchain, hb]
  have hrounds := hr.rounds
  rw [hchain, List.map_cons, List.pairwise_cons] at hrounds
  obtain ⟨hp, hdag⟩ := hr.committing hchain hblock
  have hs : s.preparedChain = rest := hp.chain
  constructor
  · exact hp.wf
  · exact hs ▸ hrounds.2
  · rw [Replica.commit, hs]
    exact fun b hb => lt_of_le_of_lt hp.le_bound (hrounds.1 _ (List.mem_map_of_mem hb))
  · rw [Replica.commit, hs]
    exact fun b hb => hr.below b (hrest b hb)
  · exact le_trans hp.le_bound (hr.below block hmem)
  · intro b hb
    rw [Replica.commit, hs] at hb
    refine (hr.heights b ?_).trans hp.height.symm
    rw [hchain]
    cases rest with
    | nil => cases hb
    | cons b' rest => exact hb
  · rw [Replica.commit, hs]
    exact fun b hb => hr.leaders b (hrest b hb)
  · rw [Replica.commit, hs]
    exact fun b hb => hr.nodup b (hrest b hb)
  · exact fun c hc => hr.delivered_of_dag c (hdag c hc)
  · rw [Replica.commit, hs]
    exact fun b hb => hr.delivered_of_leader b (hrest b hb)

lemma halt (hr : Chained con delivered r) : Chained con delivered r.halt := { hr with }

lemma start (con : MP3Consensus) : Chained con [] con.start where
  wf :=
    { bounded := fun name r h => by
        obtain ⟨c, hc, -, rfl⟩ := State.lookup_new h
        rw [Certificate.round_of_mem_genesis hc]
        exact Nat.zero_le _
      attained := Or.inl rfl }
  rounds := List.Pairwise.nil
  above := fun _ hb => absurd hb List.not_mem_nil
  below := fun _ hb => absurd hb List.not_mem_nil
  le_prepared := le_refl _
  heights := fun _ hb => by cases hb
  leaders := fun _ hb => absurd hb List.not_mem_nil
  nodup := fun _ hb => absurd hb List.not_mem_nil
  delivered_of_dag := fun _ hc => List.mem_append_left _ hc
  delivered_of_leader := fun _ hb => absurd hb List.not_mem_nil

end Chained

namespace MP3Consensus

variable {con : MP3Consensus} {certificates : List Certificate}

/-- The rule for invariants of a run, given what holds of the chain. Each
delivery may be required to meet a condition `C`. -/
theorem run_induction_of {I : List Certificate → Replica → Prop}
    {C : Replica → Certificate → Prop} (hstart : I [] con.start)
    (hignore : ∀ pre c r, r.halted = true → I pre r → I (pre ++ [c]) r)
    (hinsert : ∀ pre c r, r.halted = false → Chained con pre r → I pre r → C r c →
      I (pre ++ [c]) (r.insert c))
    (hprepare : ∀ pre round r block, Chained con pre r → I pre r →
      con.nextBlock r.state.dag r.lastPreparedRound r.state.nextHeight round = some block →
      I pre (r.prepare block))
    (hcommit : ∀ pre r block rest s sequence, r.halted = false → Chained con pre r → I pre r →
      r.state.preparedChain = block :: rest →
      con.commitBlock { r.state with preparedChain := rest } block = some (s, sequence) →
      I pre (r.commit s sequence block))
    (hhalt : ∀ pre r, I pre r → I pre r.halt)
    (hC : ForallSplit (fun pre c => C (con.run pre) c) certificates) :
    Chained con certificates (con.run certificates) ∧ I certificates (con.run certificates) := by
  refine foldl_induction (I := fun pre r => Chained con pre r ∧ I pre r) ⟨.start con, hstart⟩ ?_
  rintro pre c post hsplit ⟨hchained, hI⟩
  have hc := hC pre c post hsplit
  change Chained con (pre ++ [c]) (con.receive (con.run pre) c) ∧
    I (pre ++ [c]) (con.receive (con.run pre) c)
  change Chained con pre (con.run pre) at hchained
  change I pre (con.run pre) at hI
  rcases receive_cases con (con.run pre) c with ⟨hhalted, heq⟩ | ⟨hrunning, heq, -⟩ |
    ⟨hrunning, heq, -⟩ | ⟨block, hrunning, hlcr, hblock, heq⟩
  · rw [heq]
    exact ⟨hchained.mono c, hignore pre c _ hhalted hI⟩
  · rw [heq]
    exact ⟨hchained.insert c, hinsert pre c _ hrunning hchained hI hc⟩
  · rw [heq]
    exact ⟨(hchained.insert c).halt, hhalt _ _ (hinsert pre c _ hrunning hchained hI hc)⟩
  · rw [heq]
    -- Insert, prepare and commit down the chain; the second invariant rides on `Chained`.
    have hinserted := hinsert pre c _ hrunning hchained hI hc
    refine commitChain_induction
      (I := fun r => Chained con (pre ++ [c]) r ∧ I (pre ++ [c]) r) ?_ ?_ hrunning
      ⟨(hchained.insert c).prepare hlcr hblock,
        hprepare _ _ _ block (hchained.insert c) hinserted hblock⟩
    · rintro r block b b' rest s sequence ⟨hr, hIr⟩ hrun hchain hcommitted
      exact ⟨hr.commit hchain hcommitted, hcommit _ r block _ s sequence hrun hr hIr hchain
        hcommitted⟩
    · rintro r ⟨hr, hIr⟩
      exact ⟨hr.halt, hhalt _ r hIr⟩

theorem chained_run (con : MP3Consensus) (order : List Certificate) :
    Chained con order (con.run order) :=
  (run_induction_of (I := fun _ _ => True) (C := fun _ _ => True) trivial (fun _ _ _ _ _ => trivial)
    (fun _ _ _ _ _ _ _ => trivial) (fun _ _ _ _ _ _ _ => trivial)
    (fun _ _ _ _ _ _ _ _ _ _ _ => trivial) (fun _ _ _ => trivial) fun _ _ _ _ => trivial).1

end MP3Consensus

end StablecoinSystem
