import StablecoinSystem.Narwhal.Delivery
import StablecoinSystem.Narwhal.Plan

/-!
Agreement: are the outputs of two replicas prefixes of one another?

The blocks that a replica commits are planned by its own order of delivery.
Given the blocks, what is sent is the same for all: a replica has every
ancestor of a leader that is not committed, so it flattens the sub-dag of the
leader as a replica with the whole dag would (`Follows`), unless it is handed
certificates that it has already passed over or a sum overflows.

* `Follows.orderDag_eq`, `Follows.orderLeaders_eq`: sub-dags and linked leaders,
  in the dag delivered and in the whole dag;
* `Replayed`, `replayed_run`: what is sent is what the whole dag gives for the
  blocks committed;
* `prefix_output_of_committable`: the outputs are prefixes of one another if the
  blocks that can be committed are.
-/

namespace StablecoinSystem

open MP3Consensus

variable {con : MP3Consensus} {dag : Dag con} {delivered : List Certificate}

/-- A state `s` that holds what has been delivered follows a state `full` that
holds the whole dag. -/
structure Follows (dag : Dag con) (delivered : List Certificate) (s full : State) : Prop where
  lastCommitted : s.lastCommitted = full.lastCommitted
  lastCommittedRound : s.lastCommittedRound = full.lastCommittedRound
  full_of_mem : ∀ c ∈ s.dag, c ∈ full.dag
  mem_of_delivered : ∀ c ∈ con.genesis ++ delivered, c ∈ full.dag → c ∈ s.dag
  delivered_of_mem : ∀ c ∈ s.dag, c ∈ con.genesis ++ delivered
  dag_of_full : ∀ c ∈ full.dag, c ∈ con.genesis ++ dag.certificates
  full_of_live : ∀ c ∈ con.genesis ++ dag.certificates, full.live con.gcDepth c = true →
    c ∈ full.dag
  fits : ∀ c ∈ con.genesis ++ dag.certificates, c.round + con.gcDepth < 2 ^ 64

variable {s full : State} {x y z leader : Certificate}

/-! ### Sub-dags -/

namespace MP3Consensus

/-- Certificates of round zero are those of the genesis, without parents. -/
lemma Dag.parents_eq_nil (hy : y ∈ con.genesis ++ dag.certificates) (hround : y.round = 0) :
    y.parents = [] := by
  rcases List.mem_append.mp hy with hy | hy
  · obtain ⟨name, -, rfl⟩ := List.mem_map.mp hy
    rfl
  · have hpos := dag.rounds y hy
    omega

/-- The traversal of a sub-dag ends. -/
lemma Dag.exists_traverse (hs : ∀ c ∈ s.dag, c ∈ con.genesis ++ dag.certificates)
    (hleader : leader ∈ con.genesis ++ dag.certificates) :
    ∃ ordered, traverse (con.uncommittedParents s) con.digest (s.dag.length + 1) [leader] [] [] =
      some ordered :=
  con.exists_traverse (fun c hc => dag.parents_eq_nil (hs c hc))
    (dag.parents_eq_nil hleader)

end MP3Consensus

/-- What a round of `linked` has reached in the dag delivered and in the whole
dag: the same certificates, all delivered. -/
structure Frontier (con : MP3Consensus) (delivered : List Certificate) (round : ℕ)
    (xs ys : List Certificate) : Prop where
  nonempty : xs ≠ []
  same : ∀ c, c ∈ xs ↔ c ∈ ys
  delivered : ∀ c ∈ xs, c ∈ con.genesis ++ delivered
  round_eq : ∀ c ∈ xs, c.round = round

namespace Follows

/-- A parent of what has been delivered is found in the dag delivered if it is
found in the whole dag. -/
lemma find?_eq (h : Follows dag delivered s full) (hd : Delivered dag delivered)
    (hy : y ∈ con.genesis ++ delivered) {d : ℕ} (hparent : d ∈ y.parents) (round : ℕ) :
    (atRound round s.dag).find? (fun c => con.digest c = d) =
      (atRound round full.dag).find? fun c => con.digest c = d := by
  cases hfull : (atRound round full.dag).find? fun c => con.digest c = d with
  | none =>
      rw [List.find?_eq_none] at hfull ⊢
      intro c hc
      obtain ⟨hmem, hround⟩ := mem_atRound.mp hc
      exact hfull c (mem_atRound.mpr ⟨h.full_of_mem c hmem, hround⟩)
  | some c =>
      obtain ⟨hmem, hround⟩ := mem_atRound.mp (List.mem_of_find?_eq_some hfull)
      have hdigest := List.find?_some hfull
      rw [decide_eq_true_eq] at hdigest
      subst hdigest
      have hdelivered := (hd.parent_mem hy (h.dag_of_full c hmem) hparent).1
      have hs : c ∈ atRound round s.dag :=
        mem_atRound.mpr ⟨h.mem_of_delivered c hdelivered hmem, hround⟩
      refine (find?_eq_some_iff fun x hx y hy hxc hyc => ?_).mpr ⟨hs, decide_eq_true rfl⟩
      exact dag.eq_of_digest_eq (h.dag_of_full x (h.full_of_mem x (mem_atRound.mp hx).1))
        (h.dag_of_full y (h.full_of_mem y (mem_atRound.mp hy).1))
        ((of_decide_eq_true hxc).trans (of_decide_eq_true hyc).symm)

lemma uncommittedParents_eq (h : Follows dag delivered s full) (hd : Delivered dag delivered)
    (hy : y ∈ con.genesis ++ delivered) :
    con.uncommittedParents s y = con.uncommittedParents full y := by
  rw [uncommittedParents, uncommittedParents]
  split
  · rfl
  · split
    · rfl
    · refine congrArg some (List.filterMap_congr fun d hparent => ?_)
      rw [h.find?_eq hd hy hparent, h.lastCommitted]

/-- **The sub-dag of a leader that has been delivered is that of the whole
dag.** -/
theorem orderDag_eq (h : Follows dag delivered s full) (hd : Delivered dag delivered)
    (hleader : leader ∈ con.genesis ++ delivered) :
    con.orderDag s leader = con.orderDag full leader := by
  obtain ⟨ordered, hordered⟩ := dag.exists_traverse
    (fun c hc => h.dag_of_full c (h.full_of_mem c hc)) (hd.mem_dag hleader)
  obtain ⟨ordered', hordered'⟩ := dag.exists_traverse h.dag_of_full (hd.mem_dag hleader)
  have hsame : ordered = ordered' := by
    have hs := traverse_mono (Nat.le_add_right _ (full.dag.length + 1)) hordered
    have hfull := traverse_mono (Nat.le_add_left _ (s.dag.length + 1)) hordered'
    rw [traverse_congr (fun y hy => h.uncommittedParents_eq hd hy)
      (fun y z _ hedge => h.delivered_of_mem z (edge_uncommittedParents hedge).1)
      (List.forall_mem_singleton.mpr hleader), hfull] at hs
    exact (Option.some.inj hs).symm
  rw [orderDag, orderDag, hordered, hordered', hsame, h.lastCommittedRound]

/-! ### Linked leaders -/

/-- Above the last committed round nothing of the whole dag has been dropped. -/
lemma mem_full_of_lt (h : Follows dag delivered s full) (hs : s.Wf)
    (hc : y ∈ con.genesis ++ dag.certificates) (hround : s.lastCommittedRound < y.round) :
    y ∈ full.dag := by
  refine h.full_of_live y hc (State.live_iff.mpr ⟨fun r hr => ?_, ?_⟩)
  · rw [← h.lastCommitted] at hr
    exact le_trans (hs.bounded _ r hr) hround.le
  · rw [← h.lastCommittedRound, addDepth_of_lt (h.fits y hc)]
    omega

/-- One round of `linked`. -/
lemma linkedParents_frontier (h : Follows dag delivered s full) (hd : Delivered dag delivered)
    (hs : s.Wf) {round : ℕ} (hround : s.lastCommittedRound < round) {xs ys : List Certificate}
    (hf : Frontier con delivered (round + 1) xs ys) :
    ∃ xs' ys', con.linkedParents s.dag xs round = some xs' ∧
      con.linkedParents full.dag ys round = some ys' ∧ Frontier con delivered round xs' ys' := by
  -- the frontier has a parent, which was delivered before it
  obtain ⟨x, hx⟩ := List.exists_mem_of_ne_nil xs hf.nonempty
  have hxdag : x ∈ dag.certificates := by
    rcases List.mem_append.mp (hf.delivered x hx) with hgenesis | hmem
    · have hzero := Certificate.round_of_mem_genesis hgenesis
      have hsucc := hf.round_eq x hx
      omega
    · exact hd.subset x hmem
  obtain ⟨p, hp, hparent⟩ := dag.exists_parent hxdag
  have hback : ∀ c ∈ con.genesis ++ dag.certificates, ∀ x ∈ xs, con.digest c ∈ x.parents →
      c ∈ con.genesis ++ delivered ∧ c.round + 1 = x.round := fun c hc x hx hdigest =>
    hd.parent_mem (hf.delivered x hx) hc hdigest
  obtain ⟨hpdelivered, hpround⟩ := hback p hp x hx hparent
  rw [hf.round_eq x hx] at hpround
  have hpround' : p.round = round := by omega
  have hpfull : p ∈ full.dag := h.mem_full_of_lt hs hp (hpround' ▸ hround)
  have hps : p ∈ s.dag := h.mem_of_delivered p hpdelivered hpfull
  obtain ⟨xs', hxs', hmem⟩ := con.exists_linkedParents hps hpround' xs
  obtain ⟨ys', hys', hmem'⟩ := con.exists_linkedParents hpfull hpround' ys
  refine ⟨xs', ys', hxs', hys', ?_, fun c => ?_, fun c hc => ?_, fun c hc => ?_⟩
  · exact List.ne_nil_of_mem ((hmem p).mpr ⟨⟨hps, hpround'⟩, x, hx, hparent⟩)
  · rw [hmem, hmem']
    constructor
    · rintro ⟨⟨hc, hcround⟩, y, hy, hdigest⟩
      exact ⟨⟨h.full_of_mem c hc, hcround⟩, y, (hf.same y).mp hy, hdigest⟩
    · rintro ⟨⟨hc, hcround⟩, y, hy, hdigest⟩
      have hy' := (hf.same y).mpr hy
      have hdelivered := (hback c (h.dag_of_full c hc) y hy' hdigest).1
      exact ⟨⟨h.mem_of_delivered c hdelivered hc, hcround⟩, y, hy', hdigest⟩
  · exact h.delivered_of_mem c ((hmem c).mp hc).1.1
  · exact ((hmem c).mp hc).1.2

/-- The rounds of `linked`, from the top down. -/
lemma foldlM_linkedParents (h : Follows dag delivered s full) (hd : Delivered dag delivered)
    (hs : s.Wf) {bottom : ℕ} (hbottom : s.lastCommittedRound < bottom) (n : ℕ)
    {xs ys : List Certificate} (hf : Frontier con delivered (bottom + n) xs ys) :
    ∃ xs' ys', (List.range' bottom n).reverse.foldlM (con.linkedParents s.dag) xs = some xs' ∧
      (List.range' bottom n).reverse.foldlM (con.linkedParents full.dag) ys = some ys' ∧
      Frontier con delivered bottom xs' ys' := by
  induction n generalizing xs ys with
  | zero => exact ⟨xs, ys, rfl, rfl, hf⟩
  | succ n ih =>
      obtain ⟨xs₁, ys₁, hxs₁, hys₁, hf₁⟩ :=
        h.linkedParents_frontier hd hs (show s.lastCommittedRound < bottom + n by omega) hf
      obtain ⟨xs', ys', hxs', hys', hf'⟩ := ih hf₁
      rw [List.range'_1_concat, List.reverse_append, List.reverse_singleton,
        List.singleton_append]
      exact ⟨xs', ys', foldlM_cons_eq_some.mpr ⟨xs₁, hxs₁, hxs'⟩,
        foldlM_cons_eq_some.mpr ⟨ys₁, hys₁, hys'⟩, hf'⟩

/-- `linked` finds the same in the dag delivered as in the whole dag, and what
is linked to a leader that has been delivered has been delivered. -/
lemma linked_eq (h : Follows dag delivered s full) (hd : Delivered dag delivered) (hs : s.Wf)
    (hleader : leader ∈ con.genesis ++ delivered) {prev : Certificate} (hprev : prev ∈ full.dag)
    (hlast : s.lastCommittedRound < prev.round) (hlt : prev.round ≤ leader.round) :
    ∃ found, con.linked leader prev s.dag = some found ∧
      con.linked leader prev full.dag = some found ∧
      (found = true → prev ∈ con.genesis ++ delivered) := by
  have hf : Frontier con delivered (prev.round + (leader.round - prev.round)) [leader] [leader] :=
    ⟨List.cons_ne_nil _ _, fun _ => Iff.rfl, List.forall_mem_singleton.mpr hleader,
      List.forall_mem_singleton.mpr (by omega)⟩
  obtain ⟨xs, ys, hxs, hys, hfront⟩ := h.foldlM_linkedParents hd hs hlast _ hf
  have hany : (ys.any fun x => x.eq prev) = xs.any fun x => x.eq prev := by
    rw [Bool.eq_iff_iff, List.any_eq_true, List.any_eq_true]
    simp only [hfront.same]
  refine ⟨xs.any fun x => x.eq prev, ?_, ?_, fun hfound => ?_⟩
  · rw [linked, hxs, Option.map_some]
  · rw [linked, hys, Option.map_some, hany]
  · obtain ⟨x, hx, heq⟩ := List.any_eq_true.mp hfound
    obtain ⟨-, hround, horigin⟩ := Certificate.eq_iff.mp heq
    have hdelivered := hfront.delivered x hx
    rwa [dag.unequivocal_append x (hd.mem_dag hdelivered) prev (h.dag_of_full prev hprev) horigin
      hround] at hdelivered

/-- The certificate of an authority in a round of the dag delivered is that in
the whole dag. -/
lemma certificateOf_eq (h : Follows dag delivered s full) {round name : ℕ}
    (hs : certificateOf round name s.dag = some x) :
    certificateOf round name full.dag = some x := by
  obtain ⟨hmem, rfl, rfl⟩ := mem_of_certificateOf hs
  have hx := h.full_of_mem x hmem
  cases hfull : certificateOf x.round x.origin full.dag with
  | none =>
      exact absurd (decide_eq_true rfl) (List.find?_eq_none.mp hfull x (mem_atRound.mpr ⟨hx, rfl⟩))
  | some c =>
      obtain ⟨hc, hround, horigin⟩ := mem_of_certificateOf hfull
      rw [dag.unequivocal_append c (h.dag_of_full c hc) x (h.dag_of_full x hx) horigin hround]

/-- The primary leader of a round is that of the whole dag, or has not been
delivered. -/
lemma primaryLeader_cases (h : Follows dag delivered s full) (round : ℕ) :
    con.primaryLeader round s.dag = con.primaryLeader round full.dag ∨
      con.primaryLeader round s.dag = none ∧ ∃ prev, con.primaryLeader round full.dag = some prev ∧
        prev ∉ con.genesis ++ delivered := by
  rw [primaryLeader, primaryLeader]
  split
  · exact Or.inl rfl
  · rename_i name _
    cases hs : certificateOf round name s.dag with
    | some x => exact Or.inl (h.certificateOf_eq hs).symm
    | none =>
        cases hfull : certificateOf round name full.dag with
        | none => exact Or.inl rfl
        | some prev =>
            refine Or.inr ⟨rfl, prev, rfl, fun hdelivered => ?_⟩
            obtain ⟨hmem, hround, horigin⟩ := mem_of_certificateOf hfull
            exact absurd (decide_eq_true horigin) (List.find?_eq_none.mp hs prev
              (mem_atRound.mpr ⟨h.mem_of_delivered prev hdelivered hmem, hround⟩))

/-- One round of `order_leaders`. -/
lemma walkLeaders_eq (h : Follows dag delivered s full) (hd : Delivered dag delivered) (hs : s.Wf)
    {walk : List Certificate × Certificate} (hleader : walk.2 ∈ con.genesis ++ delivered)
    {round : ℕ} (hlast : s.lastCommittedRound < round) (hlt : round ≤ walk.2.round) :
    con.walkLeaders s.dag walk round = con.walkLeaders full.dag walk round := by
  rcases h.primaryLeader_cases round with hsame | ⟨hnone, prev, hprev, hnew⟩
  · rw [walkLeaders, walkLeaders, hsame]
    cases hprev : con.primaryLeader round full.dag with
    | none => rfl
    | some prev =>
        obtain ⟨hmem, rfl⟩ := mem_of_primaryLeader hprev
        obtain ⟨found, hlinked, hlinked', -⟩ := h.linked_eq hd hs hleader hmem hlast hlt
        simp only [hlinked, hlinked']
  · -- a leader that has not been delivered is not linked
    obtain ⟨hmem, rfl⟩ := mem_of_primaryLeader hprev
    obtain ⟨found, -, hlinked, hfound⟩ := h.linked_eq hd hs hleader hmem hlast hlt
    have hfalse : found = false := Bool.eq_false_iff.mpr fun htrue => hnew (hfound htrue)
    simp only [walkLeaders, hnone, hprev, hlinked, hfalse]

/-- **The leaders linked to a leader that has been delivered are those of the
whole dag.** -/
theorem orderLeaders_eq (h : Follows dag delivered s full) (hd : Delivered dag delivered)
    (hs : s.Wf) (hleader : leader ∈ con.genesis ++ delivered) :
    con.orderLeaders s leader = con.orderLeaders full leader := by
  rw [orderLeaders, orderLeaders, ← h.lastCommittedRound]
  congr 1
  refine foldlM_congr (I := fun pre walk => walk.2 ∈ con.genesis ++ delivered ∧
    (walk.2.round = leader.round ∨ walk.2.round ∈ pre)) ⟨hleader, Or.inl rfl⟩ ?_
  rintro pre round post walk hsplit ⟨hmem, hround⟩
  obtain ⟨hlow, hhigh, hpassed⟩ := bounds_of_split_reverse hsplit
  have hlt : round ≤ walk.2.round := by
    rcases hround with heq | hpre
    · omega
    · exact (hpassed _ hpre).le
  refine ⟨h.walkLeaders_eq hd hs hmem (by omega) hlt, fun walk' hwalk => ?_⟩
  rcases walkLeaders_cases hwalk with rfl | ⟨prev, hprev, -, rfl⟩
  · exact ⟨hmem, hround.imp_right (List.mem_append_left _)⟩
  · obtain ⟨hdag, rfl⟩ := mem_of_primaryLeader hprev
    exact ⟨h.delivered_of_mem prev hdag,
      Or.inr (List.mem_append_right _ (List.mem_singleton.mpr rfl))⟩

/-! ### Commits -/

/-- The prepared chain does not matter. -/
lemma withChain (h : Follows dag delivered s full) (chain : List MacroBlock) (height : ℕ) :
    Follows dag delivered { s with preparedChain := chain, nextHeight := height } full :=
  { h with }

lemma wf (h : Follows dag delivered s full) (hs : s.Wf) : full.Wf :=
  ⟨h.lastCommittedRound ▸ h.lastCommitted ▸ hs.bounded,
    h.lastCommittedRound ▸ h.lastCommitted ▸ hs.attained⟩

lemma live_eq (h : Follows dag delivered s full) (c : Certificate) :
    s.live con.gcDepth c = full.live con.gcDepth c := by
  rw [State.live, State.live, h.lastCommitted, h.lastCommittedRound]

/-- Committing a certificate in both states. -/
lemma commit (h : Follows dag delivered s full) (c : Certificate) :
    Follows dag delivered (s.commit con.gcDepth c) (full.commit con.gcDepth c) := by
  have hlast : s.commitRound c = full.commitRound c := by
    rw [State.commitRound, State.commitRound, h.lastCommitted]
  have hround : (s.commit con.gcDepth c).lastCommittedRound =
      (full.commit con.gcDepth c).lastCommittedRound := by
    rw [State.lastCommittedRound_commit, State.lastCommittedRound_commit, h.lastCommittedRound]
  have hlive : ∀ y, (s.commit con.gcDepth c).live con.gcDepth y =
      (full.commit con.gcDepth c).live con.gcDepth y := by
    intro y
    rw [State.live, State.live, hround, State.lastCommitted_commit, State.lastCommitted_commit,
      hlast]
  constructor
  · exact hlast
  · exact hround
  · intro y hy
    obtain ⟨hmem, hkept⟩ := State.mem_commit.mp hy
    exact State.mem_commit.mpr ⟨h.full_of_mem y hmem, hlive y ▸ hkept⟩
  · intro y hdelivered hy
    obtain ⟨hmem, hkept⟩ := State.mem_commit.mp hy
    exact State.mem_commit.mpr ⟨h.mem_of_delivered y hdelivered hmem, (hlive y).symm ▸ hkept⟩
  · exact fun y hy => h.delivered_of_mem y (State.mem_commit.mp hy).1
  · exact fun y hy => h.dag_of_full y (State.mem_commit.mp hy).1
  · exact fun y hy hkept => State.mem_commit.mpr
      ⟨h.full_of_live y hy (State.live_of_live_commit hkept), hkept⟩
  · exact h.fits

/-- Delivering a certificate that is live. -/
lemma insert {c : Certificate} (h : Follows dag delivered s full) (hc : c ∈ dag.certificates)
    (hlive : s.live con.gcDepth c = true) :
    Follows dag (delivered ++ [c]) { s with dag := insertCertificate c s.dag } full := by
  have hfull : c ∈ full.dag :=
    h.full_of_live c (List.mem_append_right _ hc) (by rwa [← h.live_eq])
  refine ⟨h.lastCommitted, h.lastCommittedRound, fun x hx => ?_, fun x hx hxfull => ?_,
    fun x hx => ?_, h.dag_of_full, h.full_of_live, h.fits⟩
  · rcases mem_insertCertificate.mp hx with rfl | ⟨hx, -⟩
    · exact hfull
    · exact h.full_of_mem x hx
  · rw [← List.append_assoc] at hx
    refine mem_insertCertificate.mpr ?_
    by_cases hslot : x.round = c.round ∧ x.origin = c.origin
    · exact Or.inl (dag.unequivocal_append x (h.dag_of_full x hxfull) c
        (List.mem_append_right _ hc) hslot.2 hslot.1)
    · rcases List.mem_append.mp hx with hx | hx
      · exact Or.inr ⟨h.mem_of_delivered x hx hxfull, hslot⟩
      · exact Or.inl (List.mem_singleton.mp hx)
  · rw [← List.append_assoc]
    rcases mem_insertCertificate.mp hx with rfl | ⟨hx, -⟩
    · exact List.mem_append_right _ (List.mem_singleton.mpr rfl)
    · exact List.mem_append_left _ (h.delivered_of_mem x hx)

end Follows

/-- A commit in the dag delivered and in the whole dag: the certificates sent
are the same. -/
structure Matches (dag : Dag con) (delivered : List Certificate) (p pFull : State × List Sent) :
    Prop where
  follows : Follows dag delivered p.1 pFull.1
  wf : p.1.Wf
  sent : p.2.map Sent.certificate = pFull.2.map Sent.certificate

namespace Matches

variable {p pFull p' : State × List Sent}

lemma sendAll (h : Matches dag delivered p pFull) (flattened flattened' : State)
    (xs : List Certificate) :
    Matches dag delivered (con.sendAll flattened p xs) (con.sendAll flattened' pFull xs) := by
  induction xs generalizing p pFull with
  | nil => exact h
  | cons x xs ih =>
      refine ih ⟨h.follows.commit x, State.wf_commit h.wf _ _, ?_⟩
      rw [List.map_append, List.map_append, h.sent]
      rfl

lemma flatten (h : Matches dag delivered p pFull) (hd : Delivered dag delivered)
    (hleader : leader ∈ con.genesis ++ delivered) (hp' : con.flatten p leader = some p') :
    ∃ pFull', con.flatten pFull leader = some pFull' ∧ Matches dag delivered p' pFull' := by
  obtain ⟨xs, hxs, rfl⟩ := flatten_eq_some h.wf hp'
  rw [h.follows.orderDag_eq hd hleader] at hxs
  have hfits : ∀ x ∈ pFull.1.dag, x.round + con.gcDepth < 2 ^ 64 := fun x hx =>
    h.follows.fits x (h.follows.dag_of_full x hx)
  exact ⟨_, flatten_of_fits (h.follows.wf h.wf) hfits hxs, h.sendAll _ _ xs⟩

lemma commitLeader (h : Matches dag delivered p pFull) (hd : Delivered dag delivered)
    (hleader : leader ∈ con.genesis ++ delivered) (hp' : con.commitLeader p leader = some p') :
    ∃ pFull', con.commitLeader pFull leader = some pFull' ∧ Matches dag delivered p' pFull' := by
  rw [MP3Consensus.commitLeader] at hp' ⊢
  rw [← h.follows.orderLeaders_eq hd h.wf hleader]
  split at hp'
  · cases hp'
  · rename_i ls hls
    obtain ⟨past, rfl, hpast, -⟩ := orderLeaders_eq hls
    have hls : ∀ q ∈ (leader :: past).reverse, q ∈ con.genesis ++ delivered := by
      intro q hq
      rcases List.mem_cons.mp (List.mem_reverse.mp hq) with rfl | hq
      · exact hleader
      · exact h.follows.delivered_of_mem q (hpast q hq).1
    exact foldlM_simulation h (fun q hq _ _ _ h hp' => h.flatten hd (hls q hq) hp') hp'

/-- The commit of a block in the dag delivered is that in the whole dag. -/
lemma commitBlock (h : Follows dag delivered s full) (hs : s.Wf) (hd : Delivered dag delivered)
    {block : MacroBlock} (hleaders : ∀ l ∈ block.slotQc.leaders, l ∈ con.genesis ++ delivered)
    (hp' : con.commitBlock s block = some p') :
    ∃ pFull', con.commitBlock full block = some pFull' ∧ Matches dag delivered p' pFull' := by
  have hinit : Matches dag delivered (s, []) (full, []) := ⟨h, hs, rfl⟩
  exact foldlM_simulation hinit
    (fun l hl _ _ _ h hp' => h.commitLeader hd (hleaders l hl) hp') hp'

end Matches

/-! ### Replay of the committed blocks -/

namespace MP3Consensus

/-- The commit of the next block, after those before it. -/
def commitNext (con : MP3Consensus) (p : State × List Sent) (block : MacroBlock) :
    Option (State × List Sent) :=
  (con.commitBlock p.1 block).map fun q => (q.1, p.2 ++ q.2)

/-- Commit blocks in a state that holds the whole dag from the start. -/
def Dag.replay (dag : Dag con) (blocks : List MacroBlock) : Option (State × List Sent) :=
  blocks.foldlM con.commitNext
    ({ State.new con.genesis with dag := con.genesis ++ dag.certificates }, [])

end MP3Consensus

/-- What a replica has sent is what the replay of its blocks sends, and its
state follows that of the replay until it halts. -/
def Replayed (dag : Dag con) (delivered : List Certificate) (r : Replica) : Prop :=
  ∃ p, dag.replay r.committed = some p ∧ r.output = p.2.map Sent.certificate ∧
    (r.halted = false → Follows dag delivered r.state p.1)

namespace Replayed

variable {r : Replica} {c : Certificate}

lemma start (dag : Dag con)
    (hfits : ∀ c ∈ con.genesis ++ dag.certificates, c.round + con.gcDepth < 2 ^ 64) :
    Replayed dag [] con.start := by
  refine ⟨_, rfl, rfl, fun _ => ?_⟩
  constructor
  · rfl
  · rfl
  · exact fun c hc => List.mem_append_left _ hc
  · intro c hc _
    rwa [List.append_nil] at hc
  · exact fun c hc => List.mem_append_left _ hc
  · exact fun c hc => hc
  · exact fun c hc _ => hc
  · exact hfits

lemma insert (h : Replayed dag delivered r) (hrunning : r.halted = false)
    (hc : c ∈ dag.certificates) (hlive : r.state.live con.gcDepth c = true) :
    Replayed dag (delivered ++ [c]) (r.insert c) := by
  obtain ⟨p, hp, hout, hfollows⟩ := h
  exact ⟨p, hp, hout, fun _ => (hfollows hrunning).insert hc hlive⟩

lemma commit {block : MacroBlock} {rest : List MacroBlock} {sequence : List Sent}
    (h : Replayed dag delivered r) (hr : Chained con delivered r) (hd : Delivered dag delivered)
    (hrunning : r.halted = false) (hchain : r.state.preparedChain = block :: rest)
    (hblock : con.commitBlock { r.state with preparedChain := rest } block = some (s, sequence)) :
    Replayed dag delivered (r.commit s sequence block) := by
  obtain ⟨p, hp, hout, hfollows⟩ := h
  have hf := hfollows hrunning
  obtain ⟨q, hq, hmatches⟩ := Matches.commitBlock (hf.withChain rest _)
    ⟨hr.wf.bounded, hr.wf.attained⟩ hd (hr.delivered_of_leader block (by simp [hchain])) hblock
  refine ⟨(q.1, p.2 ++ q.2), ?_, ?_, fun _ => hmatches.follows⟩
  · rw [Dag.replay, Replica.commit, List.foldlM_append]
    refine Option.bind_eq_some_iff.mpr ⟨p, hp, foldlM_cons_eq_some.mpr ⟨_, ?_, rfl⟩⟩
    rw [commitNext, hq, Option.map_some]
  · rw [Replica.output, Replica.commit, List.map_append, List.map_append, ← hout, ← hmatches.sent]
    rfl

end Replayed

namespace MP3Consensus

/-- **Every run is the replay of its blocks** if each certificate is live when
it is delivered and no sum overflows. -/
theorem replayed_run (d : Delivery dag)
    (hfits : ∀ c ∈ con.genesis ++ dag.certificates, c.round + con.gcDepth < 2 ^ 64)
    (hlive : ForallSplit (fun pre c => (con.run pre).state.live con.gcDepth c = true) d.order) :
    Replayed dag d.order (con.run d.order) := by
  refine d.run_induction (C := fun r c => r.state.live con.gcDepth c = true)
    (.start dag hfits) ?_ ?_ ?_ ?_ ?_ hlive
  · rintro pre c r hhalted ⟨p, hp, hout, -⟩
    refine ⟨p, hp, hout, fun hrunning => ?_⟩
    rw [hhalted] at hrunning
    cases hrunning
  · intro pre c r hrunning hd hI hc
    exact hI.insert hrunning (hd.subset c (by simp)) hc
  · rintro pre r block ⟨p, hp, hout, hfollows⟩
    exact ⟨p, hp, hout, fun hrunning => (hfollows hrunning).withChain _ _⟩
  · intro pre r block rest s sequence hrunning hr hd hI hchain hblock
    exact hI.commit hr hd hrunning hchain hblock
  · rintro pre r ⟨p, hp, hout, -⟩
    exact ⟨p, hp, hout, fun hrunning => by cases hrunning⟩

/-- A replay of more blocks sends more. -/
lemma Dag.replay_mono {blocks blocks' : List MacroBlock} {p p' : State × List Sent}
    (hblocks : blocks <+: blocks') (hp : dag.replay blocks = some p)
    (hp' : dag.replay blocks' = some p') : p.2 <+: p'.2 := by
  obtain ⟨more, rfl⟩ := hblocks
  rw [Dag.replay, List.foldlM_append] at hp'
  obtain ⟨p₁, hp₁, hmore⟩ := Option.bind_eq_some_iff.mp hp'
  cases hp.symm.trans hp₁
  refine foldlM_induction (I := fun _ p' => p.2 <+: p'.2) (List.prefix_refl _) ?_ hmore
  intro _ block _ q q' _ hq hnext
  obtain ⟨q₁, -, rfl⟩ := Option.map_eq_some_iff.mp hnext
  exact hq.trans (List.prefix_append _ _)

/-- If the blocks that two orders of delivery let commit are prefixes of one
another, each certificate is live when it is delivered and no sum overflows, the
outputs are prefixes of one another. -/
theorem prefix_output_of_committable (d d' : Delivery dag)
    (hfits : ∀ c ∈ con.genesis ++ dag.certificates, c.round + con.gcDepth < 2 ^ 64)
    (hlive : ForallSplit (fun pre c => (con.run pre).state.live con.gcDepth c = true) d.order)
    (hlive' : ForallSplit (fun pre c => (con.run pre).state.live con.gcDepth c = true) d'.order)
    (hplan : con.committable d.order <+: con.committable d'.order ∨
      con.committable d'.order <+: con.committable d.order) :
    (con.run d.order).output <+: (con.run d'.order).output ∨
      (con.run d'.order).output <+: (con.run d.order).output := by
  obtain ⟨p, hp, hout, -⟩ := replayed_run d hfits hlive
  obtain ⟨p', hp', hout', -⟩ := replayed_run d' hfits hlive'
  have hcommitted := (scheduled_run con d.order fun c hc =>
    hfits c (List.mem_append_right _ (d.subset c hc))).1
  have hcommitted' := (scheduled_run con d'.order fun c hc =>
    hfits c (List.mem_append_right _ (d'.subset c hc))).1
  have hprefix : (con.run d.order).committed <+: (con.run d'.order).committed ∨
      (con.run d'.order).committed <+: (con.run d.order).committed := by
    rcases hplan with hle | hle
    · exact List.prefix_or_prefix_of_prefix (hcommitted.trans hle) hcommitted'
    · exact List.prefix_or_prefix_of_prefix hcommitted (hcommitted'.trans hle)
  rw [hout, hout']
  exact hprefix.imp (fun h => (Dag.replay_mono h hp hp').map _)
    fun h => (Dag.replay_mono h hp' hp).map _

end MP3Consensus

end StablecoinSystem
