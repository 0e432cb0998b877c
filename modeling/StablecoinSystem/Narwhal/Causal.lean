import StablecoinSystem.Narwhal.Delivery

/-!
Causal completeness of the output: are the ancestors of a certificate sent
before it?

`order_dag` follows the parents that are in the dag, so an ancestor is missed
only if `State::update` has dropped it before it was sent. `Causal` is what
holds while that does not happen and no sum of a round and the depth of the
garbage collector overflows.

* `subdag_complete`: an ancestor of a certificate in a sub-dag is in the
  sub-dag, or has been sent;
* `causal_output`: if no call of `State::update` drops a certificate that has
  not been sent, ancestors come first;
* `output_without_ancestor`: a call may drop one.
-/

namespace StablecoinSystem

open MP3Consensus

variable {con : MP3Consensus} {dag : Dag con}

/-- In the call of `State::update` with a certificate, after those before have
been sent, the certificates of the dag above the genesis that end up below the
last committed round of their origin have been sent, or are beyond the depth of
the garbage collector. -/
def OvertakesSent (con : MP3Consensus) (before : List Sent) (e : Sent) : Prop :=
  ∀ z ∈ e.before.dag, 1 ≤ z.round →
    (z.origin = e.certificate.origin ∧ z.round < e.certificate.round ∨
      ∃ r ∈ e.before.lastCommitted.lookup z.origin, z.round < r) →
    z ∈ before.map Sent.certificate ∨
      z.round + con.gcDepth < max e.before.lastCommittedRound e.certificate.round

instance (con : MP3Consensus) (before : List Sent) (e : Sent) :
    Decidable (OvertakesSent con before e) :=
  inferInstanceAs (Decidable (∀ z ∈ e.before.dag, _))

/-- The ancestors of a certificate that are within the depth of the garbage
collector when it is flattened are among those sent before. -/
def AncestorsSent (dag : Dag con) (before : List Sent) (e : Sent) : Prop :=
  ∀ a, Relation.TransGen dag.Parent e.certificate a →
    e.flattened.lastCommittedRound ≤ a.round + con.gcDepth → a ∈ before.map Sent.certificate

/-- What holds of a state and the certificates sent, given those delivered. -/
structure Causal (dag : Dag con) (delivered : List Certificate) (s : State) (sent : List Sent) :
    Prop where
  complete : ForallSplit (AncestorsSent dag) sent
  kept : ∀ c ∈ delivered, c ∈ s.dag ∨ c ∈ sent.map Sent.certificate ∨
    c.round + con.gcDepth < s.lastCommittedRound
  last : ∀ name r, s.lastCommitted.lookup name = some r →
    r = 0 ∨ ∃ c ∈ sent.map Sent.certificate, c.origin = name ∧ c.round = r
  delivered_of_sent : ∀ c ∈ sent.map Sent.certificate, c ∈ con.genesis ++ delivered
  delivered_of_dag : ∀ c ∈ s.dag, c ∈ con.genesis ++ delivered
  flattened_le : ∀ e ∈ sent, e.flattened.lastCommittedRound ≤ s.lastCommittedRound
  fits : ∀ c ∈ dag.certificates, c.round + con.gcDepth < 2 ^ 64

variable {delivered xs : List Certificate} {s : State} {sent : List Sent}
  {q x y z a : Certificate}

/-! ### The sub-dag of a leader -/

section Subdag

variable (hd : Delivered dag delivered) (h : Causal dag delivered s sent)

include hd in
/-- A parent of what has been delivered has been delivered. -/
lemma delivered_of_parent (hy : y ∈ con.genesis ++ delivered) (hz : dag.Parent y z) :
    z ∈ delivered ∧ z.round + 1 = y.round := by
  obtain ⟨hmem, hround⟩ := hd.parent_mem hy (List.mem_append_right _ hz.1) hz.2
  refine ⟨(List.mem_append.mp hmem).resolve_left fun hgenesis => ?_, hround⟩
  have hzero := Certificate.round_of_mem_genesis hgenesis
  have hpos := dag.rounds z hz.1
  omega

include hd in
lemma round_lt_of_ancestor (hy : y ∈ con.genesis ++ delivered)
    (ha : Relation.TransGen dag.Parent y a) : a.round < y.round := by
  induction ha using Relation.TransGen.head_induction_on with
  | single hz =>
      have hround := (delivered_of_parent hd hy hz).2
      omega
  | head hz _ ih =>
      obtain ⟨hmem, hround⟩ := delivered_of_parent hd hy hz
      have hlt := ih (List.mem_append_right _ hmem)
      omega

include hd h in
/-- A digest stands for one certificate of the dag of the replica. -/
lemma digest_unique (hz : z ∈ s.dag) : ∀ c ∈ s.dag, con.digest c = con.digest z → c = z :=
  fun c hc => dag.eq_of_digest_eq (hd.mem_dag (h.delivered_of_dag c hc))
    (hd.mem_dag (h.delivered_of_dag z hz))

include hd h in
/-- A parent of a certificate of the sub-dag that is within the depth of the
garbage collector has been sent, or is followed. -/
lemma sent_or_edge_of_parent (hy : y ∈ con.genesis ++ delivered) (hz : dag.Parent y z)
    (hdepth : s.lastCommittedRound ≤ z.round + con.gcDepth) :
    z ∈ sent.map Sent.certificate ∨ Edge (con.uncommittedParents s) y z := by
  obtain ⟨hmem, hround⟩ := delivered_of_parent hd hy hz
  rcases h.kept z hmem with hdag | hsent | hout
  · by_cases hlast : s.lastCommitted.lookup z.origin = some z.round
    · -- the last committed certificate of its origin has been sent
      left
      rcases h.last _ _ hlast with hzero | ⟨c, hc, horigin, hcround⟩
      · have hpos := dag.rounds z hz.1
        omega
      · rwa [← dag.unequivocal_append c (hd.mem_dag (h.delivered_of_sent c hc)) z
          (List.mem_append_right _ hz.1) horigin hcround]
    · exact Or.inr (edge_of_mem (digest_unique hd h hdag) hdag hround hz.2 hlast)
  · exact Or.inl hsent
  · omega

include h in
/-- An ancestor of a certificate sent has been sent, if it is within the depth
of the garbage collector. -/
lemma sent_of_ancestor_of_sent (hz : z ∈ sent.map Sent.certificate)
    (ha : Relation.TransGen dag.Parent z a)
    (hdepth : s.lastCommittedRound ≤ a.round + con.gcDepth) : a ∈ sent.map Sent.certificate := by
  obtain ⟨e, he, rfl⟩ := List.mem_map.mp hz
  have hle := h.flattened_le e he
  obtain ⟨pre, post, rfl⟩ := List.append_of_mem he
  have hmem := h.complete pre e post rfl a ha (le_trans hle hdepth)
  rw [List.map_append]
  exact List.mem_append_left _ hmem

include hd h in
/-- **An ancestor of a certificate in a sub-dag is in the sub-dag, or has been
sent**, if it is within the depth of the garbage collector. -/
theorem subdag_complete (hq : q ∈ con.genesis ++ delivered) (hxs : con.orderDag s q = some xs)
    (hx : x ∈ xs) (ha : Relation.TransGen dag.Parent x a)
    (hdepth : s.lastCommittedRound ≤ a.round + con.gcDepth) :
    a ∈ sent.map Sent.certificate ∨ a ∈ xs ∧ a.round < x.round := by
  obtain ⟨ordered, hordered, hperm⟩ := exists_traverse_of_orderDag hxs
  have hkey : ∀ y y' z z', Edge (con.uncommittedParents s) y z →
      Edge (con.uncommittedParents s) y' z' → con.digest z = con.digest z' → z = z' :=
    fun y y' z z' hz hz' =>
      digest_unique hd h (edge_uncommittedParents hz').1 z (edge_uncommittedParents hz).1
  have hmem : x ∈ con.genesis ++ delivered := by
    rcases (mem_orderDag hxs hx).2 with rfl | ⟨hdag, -, -⟩
    · exact hq
    · exact h.delivered_of_dag x hdag
  suffices hgoal : a ∈ sent.map Sent.certificate ∨ a ∈ ordered by
    refine hgoal.imp_right fun hin => ⟨hperm.mem_iff.mpr (List.mem_filter.mpr ⟨hin, ?_⟩), ?_⟩
    · obtain ⟨y, -, hparent⟩ := Relation.TransGen.tail'_iff.mp ha
      rw [decide_eq_true_eq, addDepth_of_lt (h.fits a hparent.1)]
      exact hdepth
    · exact round_lt_of_ancestor hd hmem ha
  have hreach := reflTransGen_of_mem_traverse hordered
    (List.mem_of_mem_filter (hperm.mem_iff.mp hx))
  -- follow the ancestors as long as they are in the sub-dag
  clear hx
  induction ha using Relation.TransGen.head_induction_on with
  | single hz =>
      refine (sent_or_edge_of_parent hd h hmem hz hdepth).imp_right fun hedge => ?_
      exact mem_traverse_of_reflTransGen hkey hordered (hreach.tail hedge)
  | @head y z hz ha ih =>
      obtain ⟨hdelivered, -⟩ := delivered_of_parent hd hmem hz
      have hz' : z ∈ con.genesis ++ delivered := List.mem_append_right _ hdelivered
      have hlt := round_lt_of_ancestor hd hz' ha
      rcases sent_or_edge_of_parent hd h hmem hz (by omega) with hsent | hedge
      · exact Or.inl (sent_of_ancestor_of_sent h hsent ha hdepth)
      · exact ih hz' (hreach.tail hedge)

end Subdag

/-! ### Committing -/

namespace Causal

/-- The prepared chain does not matter. -/
lemma withChain (h : Causal dag delivered s sent) (chain : List MacroBlock) (height : ℕ) :
    Causal dag delivered { s with preparedChain := chain, nextHeight := height } sent :=
  { h with }

/-- Committing a certificate whose ancestors have been sent. -/
lemma commit (hd : Delivered dag delivered) (h : Causal dag delivered s sent)
    {e : Sent} (hbefore : e.before = s)
    (hmem : e.certificate ∈ con.genesis ++ delivered)
    (hflattened : e.flattened.lastCommittedRound ≤ s.lastCommittedRound)
    (hover : OvertakesSent con sent e) (hancestors : AncestorsSent dag sent e) :
    Causal dag delivered (s.commit con.gcDepth e.certificate) (sent ++ [e]) := by
  subst hbefore
  have hsent : ∀ c ∈ sent.map Sent.certificate, c ∈ (sent ++ [e]).map Sent.certificate :=
    fun c hc => by simp only [List.map_append, List.mem_append, hc, true_or]
  constructor
  · exact forallSplit_append_singleton.mpr ⟨h.complete, hancestors⟩
  · intro c hc
    rcases h.kept c hc with hdag | hold | hout
    · by_cases hlive : (e.before.commit con.gcDepth e.certificate).live con.gcDepth c = true
      · exact Or.inl (State.mem_commit.mpr ⟨hdag, hlive⟩)
      · -- it is dropped: overtaken, or beyond the garbage collector
        rw [State.live_iff, addDepth_of_lt (h.fits c (hd.subset c hc)), not_and_or] at hlive
        right
        rcases hlive with hlive | hlive
        · push Not at hlive
          obtain ⟨r, hr, hlt⟩ := hlive
          refine (hover c hdag (dag.rounds c (hd.subset c hc)) ?_).imp_left (hsent c)
          rcases State.lookup_commitRound_cases hr with hold | ⟨horigin, rfl⟩
          · exact Or.inr ⟨r, hold, hlt⟩
          · exact Or.inl ⟨horigin, hlt⟩
        · exact Or.inr (not_le.mp hlive)
    · exact Or.inr (Or.inl (hsent c hold))
    · exact Or.inr (Or.inr (lt_of_lt_of_le hout (le_max_left _ _)))
  · intro name r hr
    rcases State.lookup_commitRound_cases hr with hold | ⟨rfl, rfl⟩
    · exact (h.last name r hold).imp_right fun ⟨c, hc, hcr⟩ => ⟨c, hsent c hc, hcr⟩
    · exact Or.inr ⟨e.certificate, by simp, rfl, rfl⟩
  · rw [List.map_append, List.forall_mem_append]
    exact ⟨h.delivered_of_sent, List.forall_mem_singleton.mpr hmem⟩
  · exact fun c hc => h.delivered_of_dag c (State.mem_commit.mp hc).1
  · rw [List.forall_mem_append, List.forall_mem_singleton]
    exact ⟨fun e' he' => le_trans (h.flattened_le e' he') (le_max_left _ _),
      le_trans hflattened (le_max_left _ _)⟩
  · exact h.fits

variable {p : State × List Sent} {log : List Sent}

/-- Committing the sub-dag of a leader. -/
lemma sendAll (hd : Delivered dag delivered)
    (hcausal : ForallSplit (OvertakesSent con) (log ++ p.2) →
      Causal dag delivered p.1 (log ++ p.2))
    (hq : q ∈ con.genesis ++ delivered) (hxs : con.orderDag p.1 q = some xs)
    (hover : ForallSplit (OvertakesSent con) (log ++ (con.sendAll p.1 p xs).2)) :
    Causal dag delivered (con.sendAll p.1 p xs).1 (log ++ (con.sendAll p.1 p xs).2) := by
  -- The condition on what is overtaken is for the whole log, so it holds for its prefix.
  have h : Causal dag delivered p.1 (log ++ p.2) := by
    obtain ⟨tail, htail⟩ := con.exists_append_sendAll p.1 p xs
    rw [htail, ← List.append_assoc] at hover
    exact hcausal hover.of_append
  refine (sendAll_induction (I := fun pre p' =>
    p'.2.map Sent.certificate = p.2.map Sent.certificate ++ pre ∧
      p.1.lastCommittedRound ≤ p'.1.lastCommittedRound ∧
        (ForallSplit (OvertakesSent con) (log ++ p'.2) →
          Causal dag delivered p'.1 (log ++ p'.2)))
    ⟨(List.append_nil _).symm, le_refl _, fun _ => h⟩ ?_).2.2 hover
  rintro pre x post p' hsplit ⟨hsent, hle, hcausal⟩
  refine ⟨by simp [hsent], le_trans hle (le_max_left _ _), fun hover => ?_⟩
  rw [← List.append_assoc, forallSplit_append_singleton] at hover
  rw [← List.append_assoc]
  have hx : x ∈ xs := mem_of_split hsplit
  refine commit hd (hcausal hover.1) (e := ⟨x, p.1, p'.1⟩) rfl ?_ hle hover.2 ?_
  · rcases (mem_orderDag hxs hx).2 with rfl | ⟨hdag, -, -⟩
    · exact hq
    · exact h.delivered_of_dag x hdag
  · intro a ha hdepth
    rw [List.map_append, hsent, ← List.append_assoc, ← List.map_append]
    rcases subdag_complete hd h hq hxs hx ha hdepth with hold | ⟨hmem, hlt⟩
    · exact List.mem_append_left _ hold
    · -- the sub-dag is sorted by rounds, so the ancestor comes first
      refine List.mem_append_right _ ?_
      have hsorted := sorted_orderDag hxs
      rw [hsplit, List.mem_append] at hmem
      rw [hsplit, List.pairwise_append, List.pairwise_cons] at hsorted
      rcases hmem with hmem | hmem
      · exact hmem
      · rcases List.mem_cons.mp hmem with rfl | hmem
        · omega
        · have := hsorted.2.1.1 a hmem
          omega

/-- Committing a block of leaders that have been delivered. -/
lemma commitBlock (hd : Delivered dag delivered) (h : Causal dag delivered s log) (hs : s.Wf)
    {block : MacroBlock} {p' : State × List Sent} (hround : s.lastCommittedRound ≤ block.round)
    (hleaders : ∀ l ∈ block.slotQc.leaders, l.round = block.round)
    (hmem : ∀ l ∈ block.slotQc.leaders, l ∈ con.genesis ++ delivered)
    (hblock : con.commitBlock s block = some p')
    (hover : ForallSplit (OvertakesSent con) (log ++ p'.2)) :
    Causal dag delivered p'.1 (log ++ p'.2) := by
  refine (commitBlock_induction (I := fun _ p => (∀ c ∈ p.1.dag, c ∈ con.genesis ++ delivered) ∧
    (ForallSplit (OvertakesSent con) (log ++ p.2) → Causal dag delivered p.1 (log ++ p.2)))
    hs hround hleaders ?_ ?_ ?_ hblock).2.2 hover
  · rw [List.append_nil]
    exact ⟨h.delivered_of_dag, fun _ => h⟩
  · rintro done p p' q xs ⟨hdag, -⟩ hp' ⟨hdag', hcausal⟩ hq - - hxs
    exact ⟨fun c hc => hdag' c (mem_dag_of_mem_sendAll hc), fun hover =>
      sendAll hd hcausal (hdag q hq) hxs hover⟩
  · rintro done l post p xs hsplit hp ⟨hdag, hcausal⟩ hxs
    exact ⟨fun c hc => hdag c (mem_dag_of_mem_sendAll hc), fun hover =>
      sendAll hd hcausal (hmem l (mem_of_split hsplit)) hxs hover⟩

end Causal

/-- Delivering a certificate of the dag. -/
lemma Causal.insert {r : Replica} {c : Certificate} (h : Causal dag delivered r.state r.sent)
    (hd : Delivered dag (delivered ++ [c])) :
    Causal dag (delivered ++ [c]) (r.insert c).state r.sent := by
  have hmono : ∀ x ∈ con.genesis ++ delivered, x ∈ con.genesis ++ (delivered ++ [c]) :=
    fun x hx => by rw [← List.append_assoc]; exact List.mem_append_left _ hx
  constructor
  · exact h.complete
  · intro x hx
    by_cases hkey : x.round = c.round ∧ x.origin = c.origin
    · have heq := dag.unequivocal x (hd.subset x hx) c (hd.subset c (by simp)) hkey.2 hkey.1
      exact Or.inl (mem_insertCertificate.mpr (Or.inl heq))
    · rcases List.mem_append.mp hx with hx | hx
      · exact (h.kept x hx).imp_left fun hdag => mem_insertCertificate.mpr (Or.inr ⟨hdag, hkey⟩)
      · exact absurd (by rw [List.mem_singleton.mp hx]; exact ⟨rfl, rfl⟩) hkey
  · exact h.last
  · exact fun x hx => hmono x (h.delivered_of_sent x hx)
  · intro x hx
    rcases mem_insertCertificate.mp hx with rfl | ⟨hx, -⟩
    · simp
    · exact hmono x (h.delivered_of_dag x hx)
  · exact h.flattened_le
  · exact h.fits

lemma Causal.start (dag : Dag con)
    (hfits : ∀ c ∈ dag.certificates, c.round + con.gcDepth < 2 ^ 64) :
    Causal dag [] con.start.state [] where
  complete := fun pre e post h => by cases pre <;> cases h
  kept := fun _ hc => absurd hc List.not_mem_nil
  last := fun name r h => by
    obtain ⟨c, hc, -, rfl⟩ := State.lookup_new h
    exact Or.inl (Certificate.round_of_mem_genesis hc)
  delivered_of_sent := fun _ hc => absurd hc List.not_mem_nil
  delivered_of_dag := fun _ hc => List.mem_append_left _ hc
  flattened_le := fun _ he => absurd he List.not_mem_nil
  fits := hfits

namespace MP3Consensus

/-- **Causal completeness.** If no call of `State::update` in the run overtakes
a certificate that has not been sent and no `round + gc_depth` overflows, the
ancestors of every certificate are sent before it. -/
theorem causal_output (delivery : Delivery dag)
    (hfits : ∀ c ∈ dag.certificates, c.round + con.gcDepth < 2 ^ 64)
    (hover : ForallSplit (OvertakesSent con) (con.run delivery.order).sent) :
    ForallSplit (AncestorsSent dag) (con.run delivery.order).sent := by
  have hno : ForallSplit (fun _ _ => True) delivery.order := fun _ _ _ _ => trivial
  have hinv := delivery.run_induction (C := fun _ _ => True)
    (I := fun pre r => ForallSplit (OvertakesSent con) r.sent →
      ForallSplit (AncestorsSent dag) r.sent ∧
        (r.halted = false → Causal dag pre r.state r.sent)) ?_ ?_ ?_ ?_ ?_ ?_ hno
  · exact (hinv hover).1
  · exact fun _ => ⟨(Causal.start dag hfits).complete, fun _ => .start dag hfits⟩
  · intro pre c r hhalted hI hover
    refine ⟨(hI hover).1, fun hrunning => ?_⟩
    rw [hhalted] at hrunning
    cases hrunning
  · intro pre c r hrunning hd hI _ hover
    obtain ⟨hcomplete, hcausal⟩ := hI hover
    exact ⟨hcomplete, fun _ => (hcausal hrunning).insert hd⟩
  · intro pre r block hI hover
    exact (hI hover).imp_right fun hcausal hrunning => (hcausal hrunning).withChain _ _
  · intro pre r block rest s sequence hrunning hr hd hI hchain hblock hover
    have hmem : block ∈ r.state.preparedChain := by simp [hchain]
    have h := ((hI hover.of_append).2 hrunning).withChain rest r.state.nextHeight
    have hcommitted := h.commitBlock hd ⟨hr.wf.bounded, hr.wf.attained⟩ (hr.above block hmem).le
      (hr.leaders block hmem) (hr.delivered_of_leader block hmem) hblock hover
    exact ⟨hcommitted.complete, fun _ => hcommitted⟩
  · intro pre r hI hover
    refine ⟨(hI hover).1, fun hrunning => ?_⟩
    cases hrunning

/-- Six rounds of a committee of two, with the given certificate of authority 0
in round 2. -/
def withSecond (c : Certificate) : List Certificate :=
  [certify 1 0 [0, 1] (by decide), certify 1 1 [0, 1] (by decide), c,
    certify 2 1 [0, 1] (by decide), certify 3 1 [0, 1] (by decide), certify 4 0 [1] (by decide),
    certify 4 1 [1] (by decide), certify 5 1 [0, 1] (by decide), certify 6 1 [1] (by decide)]

/-- Authority 0 refers to its certificate of round 1 in round 2. -/
def linkedRounds : Dag twoAuthorities where
  certificates := withSecond (certify 2 0 [0, 1] (by decide))
  unequivocal := by decide +kernel
  rounds := by decide +kernel
  parents := by decide +kernel
  quorum := by decide +kernel

/-- Authority 0 does not refer to its certificate of round 1 in round 2. -/
def unlinkedRounds : Dag twoAuthorities where
  certificates := withSecond (certify 2 0 [1] (by decide))
  unequivocal := by decide +kernel
  rounds := by decide +kernel
  parents := by decide +kernel
  quorum := by decide +kernel

/-- The dag in the order in which it is listed. -/
def linkedDelivery : Delivery linkedRounds where
  order := linkedRounds.certificates
  nodup := by decide +kernel
  subset := fun _ hc => hc
  afterParents := by decide +kernel

theorem causal_output_linkedRounds :
    ForallSplit (AncestorsSent linkedRounds)
      (twoAuthorities.run linkedDelivery.order).sent :=
  causal_output linkedDelivery (by decide +kernel) (by decide +kernel)

/-- The commit of the second certificate of authority 0 drops its first one,
which has not been sent. Then the second one of authority 1 is sent without
it, its parent. -/
theorem output_without_ancestor :
    ∃ delivery : Delivery unlinkedRounds,
      ¬ForallSplit (AncestorsSent unlinkedRounds) (twoAuthorities.run delivery.order).sent := by
  refine ⟨⟨withSecond (certify 2 0 [1] (by decide)), by decide +kernel, fun _ hc => hc,
    by decide +kernel⟩, fun h => ?_⟩
  have hmem := forallSplit_iff_get.mp h ⟨2, by decide +kernel⟩ (certify 1 0 [0, 1] (by decide))
    (.single (by decide +kernel)) (by decide +kernel)
  revert hmem
  decide +kernel

end MP3Consensus

end StablecoinSystem
