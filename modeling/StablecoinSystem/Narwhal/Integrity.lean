import StablecoinSystem.Narwhal.Delivery

/-!
Integrity of the output: is a certificate sent twice?

`order_dag` skips a certificate whose round equals the last committed round of
its origin, and `State::update` drops those of lower rounds. So a certificate
that has been sent is skipped as long as it is in the dag (`Clean`), unless it
is delivered again after it was dropped.

* `nodup_output`: no certificate is sent twice if none is delivered again after
  it was sent and a later one of its origin committed;
* `output_twice`: one that is may be sent again.
-/

namespace StablecoinSystem

open MP3Consensus

/-- The certificates sent so far are distinct, none is above the last committed
round of its origin, and those still in the dag are at it. -/
structure Clean (s : State) (log : List Certificate) : Prop where
  nodup : log.Nodup
  bound : ∀ c ∈ log, ∃ r, s.lastCommitted.lookup c.origin = some r ∧ c.round ≤ r
  atLast : ∀ c ∈ s.dag, c ∈ log → s.lastCommitted.lookup c.origin = some c.round

namespace Clean

variable {con : MP3Consensus} {s : State} {log : List Certificate} {x q : Certificate}
  {p : State × List Sent} {xs : List Certificate} {flattened : State}

/-- A certificate above the last committed round has not been sent. -/
lemma notMem_of_lt (h : Clean s log) (hs : s.Wf) (hx : s.lastCommittedRound < x.round) :
    x ∉ log := by
  intro hmem
  obtain ⟨r, hr, hle⟩ := h.bound x hmem
  have := hs.bounded _ r hr
  omega

/-- Committing a certificate that has not been sent. -/
lemma commit (h : Clean s log) (hx : x ∉ log) (gcDepth : ℕ) :
    Clean (s.commit gcDepth x) (log ++ [x]) := by
  have hbound : ∀ c ∈ log ++ [x], ∃ r,
      (s.commit gcDepth x).lastCommitted.lookup c.origin = some r ∧ c.round ≤ r := by
    rw [State.lastCommitted_commit, List.forall_mem_append, List.forall_mem_singleton]
    refine ⟨fun c hc => ?_, _, State.lookup_commitRound_self s x, le_max_right _ _⟩
    obtain ⟨r, hr, hle⟩ := h.bound c hc
    obtain ⟨r', hr', hrr'⟩ := State.exists_le_lookup_commitRound hr x
    exact ⟨r', hr', le_trans hle hrr'⟩
  refine ⟨?_, hbound, fun c hdag hc => ?_⟩
  · exact h.nodup.append (List.nodup_singleton _) (List.disjoint_singleton.mpr hx)
  · -- what is kept is not below the last committed round of its origin
    obtain ⟨r, hr, hle⟩ := hbound c hc
    have hlive := (State.live_iff.mp (State.mem_commit.mp hdag).2).1 r hr
    rw [hr, le_antisymm hle hlive]

/-- Committing, one after the other, certificates that have not been sent. -/
lemma sendAll (h : Clean p.1 (log ++ p.2.map Sent.certificate)) (hnodup : xs.Nodup)
    (hxs : ∀ x ∈ xs, x ∉ log ++ p.2.map Sent.certificate) :
    Clean (con.sendAll flattened p xs).1
      (log ++ (con.sendAll flattened p xs).2.map Sent.certificate) := by
  refine (sendAll_induction (I := fun pre p' => Clean p'.1 (log ++ p'.2.map Sent.certificate) ∧
    p'.2.map Sent.certificate = p.2.map Sent.certificate ++ pre) ⟨h, (List.append_nil _).symm⟩
    ?_).1
  rintro pre x post p' hsplit ⟨hclean, hsent⟩
  have hx : x ∈ xs := mem_of_split hsplit
  have hpre : x ∉ pre := by
    rw [hsplit, List.nodup_append] at hnodup
    exact fun hmem => hnodup.2.2 x hmem x (List.mem_cons_self ..) rfl
  have hnew : x ∉ log ++ p'.2.map Sent.certificate := by
    rw [hsent, ← List.append_assoc]
    exact fun hmem => (List.mem_append.mp hmem).elim (hxs x hx) hpre
  refine ⟨?_, by simp [hsent]⟩
  rw [List.map_append, ← List.append_assoc]
  exact hclean.commit hnew con.gcDepth

/-- A sub-dag of a leader that has not been sent holds no certificate that has
been. -/
lemma notMem_of_mem_orderDag (h : Clean s log) (hq : q ∉ log)
    (hxs : con.orderDag s q = some xs) (hx : x ∈ xs) : x ∉ log := by
  rcases (mem_orderDag hxs hx).2 with rfl | ⟨hdag, -, hlast⟩
  · exact hq
  · exact fun hmem => hlast (h.atLast x hdag hmem)

/-- Committing a block above the last committed round. -/
lemma commitBlock {block : MacroBlock} {p' : State × List Sent} (h : Clean s log) (hs : s.Wf)
    (hround : s.lastCommittedRound < block.round)
    (hleaders : ∀ l ∈ block.slotQc.leaders, l.round = block.round)
    (hnodup : block.slotQc.leaders.Nodup) (hblock : con.commitBlock s block = some p') :
    Clean p'.1 (log ++ p'.2.map Sent.certificate) := by
  -- of the round of the block, only slot leaders that are done have been sent
  refine (commitBlock_induction (I := fun done p =>
    Clean p.1 (log ++ p.2.map Sent.certificate) ∧
      ∀ c ∈ log ++ p.2.map Sent.certificate, c.round < block.round ∨ c ∈ done)
    hs hround.le hleaders ?_ ?_ ?_ hblock).2.1
  · rw [List.map_nil, List.append_nil]
    refine ⟨h, fun c hc => Or.inl ?_⟩
    obtain ⟨r, hr, hle⟩ := h.bound c hc
    exact lt_of_le_of_lt hle (lt_of_le_of_lt (hs.bounded _ r hr) hround)
  · rintro done p p' q xs - hp' ⟨hclean, hdone⟩ - hlt hq hxs
    have hnew := hclean.notMem_of_lt hp'.wf hlt
    refine ⟨hclean.sendAll (nodup_orderDag hxs) fun x hx =>
      hclean.notMem_of_mem_orderDag hnew hxs hx, ?_⟩
    rw [certificates_sendAll, ← List.append_assoc, List.forall_mem_append]
    exact ⟨hdone, fun x hx => Or.inl (lt_of_le_of_lt (round_le_of_mem_orderDag hxs hx) hq)⟩
  · rintro done l post p xs hsplit hp ⟨hclean, hdone⟩ hxs
    have hl : l.round = block.round := hleaders l (mem_of_split hsplit)
    have hnew : l ∉ log ++ p.2.map Sent.certificate := by
      intro hmem
      rcases hdone l hmem with hlt | hmem
      · omega
      · rw [hsplit, List.nodup_append] at hnodup
        exact hnodup.2.2 l hmem l (List.mem_cons_self ..) rfl
    refine ⟨hclean.sendAll (nodup_orderDag hxs) fun x hx =>
      hclean.notMem_of_mem_orderDag hnew hxs hx, ?_⟩
    rw [certificates_sendAll, ← List.append_assoc, List.forall_mem_append]
    refine ⟨fun c hc => (hdone c hc).imp_right (List.mem_append_left _), fun x hx => ?_⟩
    rcases (mem_orderDag hxs hx).2 with rfl | ⟨-, hlt, -⟩
    · exact Or.inr (List.mem_append_right _ (List.mem_singleton.mpr rfl))
    · exact Or.inl (hl ▸ hlt)

end Clean

namespace MP3Consensus

/-- **Integrity.** If no certificate is delivered that has been sent and is
below the last committed round of its origin, none is sent twice. -/
theorem nodup_output (con : MP3Consensus) (certificates : List Certificate)
    (hagain : ForallSplit (fun pre c => c ∈ (con.run pre).output →
      ∀ r ∈ (con.run pre).state.lastCommitted.lookup c.origin, r ≤ c.round) certificates) :
    (con.run certificates).output.Nodup := by
  refine (run_induction_of (I := fun _ r => Clean r.state r.output) (C := fun r c => c ∈ r.output →
    ∀ round ∈ r.state.lastCommitted.lookup c.origin, round ≤ c.round)
    ?_ ?_ ?_ ?_ ?_ ?_ hagain).2.nodup
  · exact ⟨List.nodup_nil, fun _ hc => absurd hc List.not_mem_nil, fun _ _ hc =>
      absurd hc List.not_mem_nil⟩
  · exact fun pre c r _ h => h
  · rintro pre c r - - h hc
    refine ⟨h.nodup, h.bound, fun x hdag hx => ?_⟩
    rcases mem_insertCertificate.mp hdag with rfl | ⟨hdag, -⟩
    · obtain ⟨round, hround, hle⟩ := h.bound x hx
      exact hround.trans (congrArg some (le_antisymm (hc hx round hround) hle))
    · exact h.atLast x hdag hx
  · exact fun pre round r block _ h _ => ⟨h.nodup, h.bound, h.atLast⟩
  · intro pre r block rest s sequence _ hr h hchain hblock
    have hmem : block ∈ r.state.preparedChain := by simp [hchain]
    have hclean := Clean.commitBlock (s := { r.state with preparedChain := rest })
      ⟨h.nodup, h.bound, h.atLast⟩ ⟨hr.wf.bounded, hr.wf.attained⟩ (hr.above block hmem)
      (hr.leaders block hmem) (hr.nodup block hmem) hblock
    rw [Replica.output, Replica.commit, List.map_append]
    exact hclean
  · exact fun pre r h => ⟨h.nodup, h.bound, h.atLast⟩

/-- Six rounds of a committee of two. Before the last certificate, the given
one is delivered again. -/
def sixRounds (again : Certificate) : List Certificate :=
  [certifyBoth 1 0, certifyBoth 1 1, certifyBoth 2 0, certifyBoth 2 1, certifyBoth 3 1,
    certifySecond 4 0, certifySecond 4 1, certifyBoth 5 1, again, certifySecond 6 1]

/-- The certificate that is delivered again is the last committed one of its
origin, and is skipped. -/
theorem nodup_output_sixRounds :
    (twoAuthorities.run (sixRounds (certify 2 0 [0, 1] (by decide)))).output.Nodup :=
  nodup_output _ _ (by decide +kernel)

/-- The certificate that is delivered again is below the last committed round
of its origin, and is sent again as an ancestor of the next leader. -/
theorem output_twice :
    Unequivocal (sixRounds (certify 1 0 [0, 1] (by decide))) ∧
      twoAuthorities.AfterParents (sixRounds (certify 1 0 [0, 1] (by decide))) ∧
      ¬(twoAuthorities.run (sixRounds (certify 1 0 [0, 1] (by decide)))).output.Nodup := by
  decide +kernel

end MP3Consensus

end StablecoinSystem
