import StablecoinSystem.Narwhal.Consensus

/-!
What the flattening of sub-dags returns.

* `exists_traverse`: the traversal of `order_dag` ends;
* `mem_orderDag`, `nodup_orderDag`, `sorted_orderDag`: `order_dag` lists the
  leader and uncommitted certificates below it, each once, by round;
* `orderLeaders_eq`: `order_leaders` lists the leader and then leaders of lower
  rounds that have not been committed, by falling rounds;
* `flatten_eq_some`: the loop over a sub-dag commits its certificates in order;
* `commitLeader_induction`, `commitBlock_induction`: the rules for the loops over
  linked leaders and over slot leaders.
-/

namespace StablecoinSystem

namespace MP3Consensus

variable {con : MP3Consensus} {s : State} {x z leader : Certificate} {xs : List Certificate}

/-! ### The sub-dag of a leader -/

/-- An edge of the sub-dag leads to a certificate of the round below that is
in the dag and not the last committed of its origin. -/
lemma edge_uncommittedParents (h : Edge (con.uncommittedParents s) x z) :
    z ∈ s.dag ∧ z.round + 1 = x.round ∧ con.digest z ∈ x.parents ∧
      s.lastCommitted.lookup z.origin ≠ some z.round := by
  obtain ⟨zs, hzs, hz⟩ := h
  rw [uncommittedParents] at hzs
  split at hzs
  · cases hzs
    cases hz
  · split at hzs
    · split at hzs
      · cases hzs
      · cases hzs
        cases hz
    · rename_i hround
      cases hzs
      obtain ⟨parent, hparent, hfound⟩ := List.mem_filterMap.mp hz
      split at hfound
      · cases hfound
      · rename_i c hc
        split at hfound
        · cases hfound
        · rename_i hlast
          cases hfound
          have hmem := mem_atRound.mp (List.mem_of_find?_eq_some hc)
          have hdigest := List.find?_some hc
          rw [decide_eq_true_eq] at hdigest
          exact ⟨hmem.1, by omega, hdigest ▸ hparent, hlast⟩

/-- If its digest stands for one certificate of the dag, a parent is followed
unless it is the last committed of its origin. -/
lemma edge_of_mem (hkey : ∀ c ∈ s.dag, con.digest c = con.digest z → c = z) (hz : z ∈ s.dag)
    (hround : z.round + 1 = x.round) (hparent : con.digest z ∈ x.parents)
    (hlast : s.lastCommitted.lookup z.origin ≠ some z.round) :
    Edge (con.uncommittedParents s) x z := by
  have hne : x.parents ≠ [] := List.ne_nil_of_mem hparent
  have hpos : x.round ≠ 0 := by omega
  have hat : z ∈ atRound (x.round - 1) s.dag := mem_atRound.mpr ⟨hz, by omega⟩
  refine ⟨_, by rw [uncommittedParents, if_neg hne, if_neg hpos], ?_⟩
  refine List.mem_filterMap.mpr ⟨con.digest z, hparent, ?_⟩
  have hfind : (atRound (x.round - 1) s.dag).find? (fun c => con.digest c = con.digest z) =
      some z := by
    refine (find?_eq_some_iff fun c hc c' hc' hcz hcz' => ?_).mpr ⟨hat, decide_eq_true rfl⟩
    rw [hkey c (mem_atRound.mp hc).1 (of_decide_eq_true hcz),
      hkey c' (mem_atRound.mp hc').1 (of_decide_eq_true hcz')]
  rw [hfind]
  exact if_neg hlast

/-- Rounds fall along the edges of the sub-dag. -/
lemma round_lt_of_transGen (h : Relation.TransGen (Edge (con.uncommittedParents s)) x z) :
    z.round < x.round := by
  induction h with
  | single h =>
      have hround := (edge_uncommittedParents h).2.1
      omega
  | tail _ h ih =>
      have hround := (edge_uncommittedParents h).2.1
      omega

lemma not_transGen_self : ¬Relation.TransGen (Edge (con.uncommittedParents s)) x x :=
  fun h => lt_irrefl _ (round_lt_of_transGen h)

/-- A certificate can be expanded unless it has parents in round zero. -/
lemma exists_uncommittedParents (hx : x.round = 0 → x.parents = []) (s : State) :
    ∃ zs, con.uncommittedParents s x = some zs := by
  rw [uncommittedParents]
  split
  · exact ⟨[], rfl⟩
  · rename_i hparents
    rw [if_neg fun hround => hparents (hx hround)]
    exact ⟨_, rfl⟩

/-- The traversal of a sub-dag ends if no certificate has parents in round
zero. -/
lemma exists_traverse (con : MP3Consensus)
    (hs : ∀ c ∈ s.dag, c.round = 0 → c.parents = [])
    (hleader : leader.round = 0 → leader.parents = []) :
    ∃ ordered, traverse (con.uncommittedParents s) con.digest (s.dag.length + 1) [leader] [] [] =
      some ordered := by
  refine exists_traverse_eq _ s.dag (fun y hy => exists_uncommittedParents ?_ s)
    (fun _ _ hedge => (edge_uncommittedParents hedge).1) (le_refl _)
  induction hy with
  | refl => exact hleader
  | tail _ hedge => exact hs _ (edge_uncommittedParents hedge).1

/-- The traversal behind `order_dag`, and what of it is returned. -/
lemma orderDag_eq_some (h : con.orderDag s leader = some xs) :
    ∃ ordered, traverse (con.uncommittedParents s) con.digest (s.dag.length + 1) [leader] [] [] =
      some ordered ∧ xs = (ordered.filter fun x =>
        s.lastCommittedRound ≤ addDepth con.gcDepth x.round).insertionSort Certificate.roundLe := by
  rw [orderDag] at h
  split at h
  · cases h
  · rename_i ordered hordered
    obtain ⟨kept, hkept, rfl⟩ := Option.map_eq_some_iff.mp h
    exact ⟨ordered, hordered, by rw [retainDepth_eq_some hkept]⟩

lemma exists_traverse_of_orderDag (h : con.orderDag s leader = some xs) :
    ∃ ordered, traverse (con.uncommittedParents s) con.digest (s.dag.length + 1) [leader] [] [] =
      some ordered ∧ xs.Perm (ordered.filter fun x =>
        s.lastCommittedRound ≤ addDepth con.gcDepth x.round) := by
  obtain ⟨ordered, hordered, rfl⟩ := orderDag_eq_some h
  exact ⟨ordered, hordered, List.perm_insertionSort ..⟩

/-- `order_dag` returns if no certificate has parents in round zero and no sum
overflows. -/
lemma exists_orderDag (con : MP3Consensus) (hs : ∀ c ∈ s.dag, c.round = 0 → c.parents = [])
    (hleader : leader.round = 0 → leader.parents = [])
    (hfits : ∀ c ∈ leader :: s.dag, c.round + con.gcDepth < 2 ^ 64) :
    ∃ xs, con.orderDag s leader = some xs := by
  obtain ⟨ordered, hordered⟩ := con.exists_traverse hs hleader
  have hordfits : ∀ x ∈ ordered, x.round + con.gcDepth < 2 ^ 64 := by
    intro x hx
    rcases Relation.reflTransGen_iff_eq_or_transGen.mp
        (reflTransGen_of_mem_traverse hordered hx) with rfl | hreach
    · exact hfits x (List.mem_cons_self ..)
    · obtain ⟨y, -, hedge⟩ := Relation.TransGen.tail'_iff.mp hreach
      exact hfits x (List.mem_cons_of_mem _ (edge_uncommittedParents hedge).1)
  rw [orderDag, hordered]
  dsimp only
  rw [retainDepth_of_fits fun _ => hordfits]
  exact ⟨_, rfl⟩

lemma mem_orderDag (h : con.orderDag s leader = some xs) (hx : x ∈ xs) :
    s.lastCommittedRound ≤ addDepth con.gcDepth x.round ∧ (x = leader ∨
      x ∈ s.dag ∧ x.round < leader.round ∧ s.lastCommitted.lookup x.origin ≠ some x.round) := by
  obtain ⟨ordered, hordered, hperm⟩ := exists_traverse_of_orderDag h
  obtain ⟨hmem, hdepth⟩ := List.mem_filter.mp (hperm.mem_iff.mp hx)
  refine ⟨of_decide_eq_true hdepth, ?_⟩
  rcases Relation.reflTransGen_iff_eq_or_transGen.mp
      (reflTransGen_of_mem_traverse hordered hmem) with rfl | hreach
  · exact Or.inl rfl
  · obtain ⟨y, -, hedge⟩ := Relation.TransGen.tail'_iff.mp hreach
    obtain ⟨hdag, -, -, hlast⟩ := edge_uncommittedParents hedge
    exact Or.inr ⟨hdag, round_lt_of_transGen hreach, hlast⟩

lemma round_le_of_mem_orderDag (h : con.orderDag s leader = some xs) (hx : x ∈ xs) :
    x.round ≤ leader.round := by
  rcases (mem_orderDag h hx).2 with rfl | ⟨-, hlt, -⟩
  · exact le_refl _
  · exact hlt.le

lemma nodup_orderDag (h : con.orderDag s leader = some xs) : xs.Nodup := by
  obtain ⟨ordered, hordered, hperm⟩ := exists_traverse_of_orderDag h
  exact hperm.nodup_iff.mpr ((nodup_traverse not_transGen_self hordered).filter _)

lemma sorted_orderDag (h : con.orderDag s leader = some xs) :
    xs.Pairwise fun a b => a.round ≤ b.round := by
  obtain ⟨ordered, -, rfl⟩ := orderDag_eq_some h
  exact List.pairwise_insertionSort Certificate.roundLe _

/-- A leader that is within the depth of the garbage collector is in its sub-dag,
unless the sum overflows. -/
lemma leader_mem_orderDag (h : con.orderDag s leader = some xs)
    (hle : s.lastCommittedRound ≤ leader.round + con.gcDepth)
    (hfits : leader.round + con.gcDepth < 2 ^ 64) : leader ∈ xs := by
  obtain ⟨ordered, hordered, hperm⟩ := exists_traverse_of_orderDag h
  rw [← addDepth_of_lt hfits] at hle
  exact hperm.mem_iff.mpr (List.mem_filter.mpr ⟨start_mem_traverse hordered, decide_eq_true hle⟩)

/-! ### The leaders linked to a leader -/

/-- A round that has certificates is passed by `linked`. -/
lemma exists_linkedParents (con : MP3Consensus) {dag : List Certificate} {round : ℕ}
    (hx : x ∈ dag) (hround : x.round = round) (parents : List Certificate) :
    ∃ xs, con.linkedParents dag parents round = some xs ∧ ∀ c, c ∈ xs ↔
      (c ∈ dag ∧ c.round = round) ∧ ∃ p ∈ parents, con.digest c ∈ p.parents := by
  have hmem : x ∈ atRound round dag := mem_atRound.mpr ⟨hx, hround⟩
  rw [linkedParents]
  split
  · rename_i hnil
    rw [hnil] at hmem
    cases hmem
  · refine ⟨_, rfl, fun c => ?_⟩
    simp only [List.mem_filter, mem_atRound, List.any_eq_true, decide_eq_true_eq]

/-- One round of `order_leaders` adds the primary leader of the round, or
nothing. -/
lemma walkLeaders_cases {dag : List Certificate} {walk walk' : List Certificate × Certificate}
    {round : ℕ} (h : con.walkLeaders dag walk round = some walk') :
    walk' = walk ∨ ∃ prev, con.primaryLeader round dag = some prev ∧
      con.linked walk.2 prev dag = some true ∧ walk' = (walk.1 ++ [prev], prev) := by
  rw [walkLeaders] at h
  split at h
  · cases h
    exact Or.inl rfl
  · rename_i prev hprev
    split at h
    · cases h
    · rename_i hlinked
      cases h
      exact Or.inr ⟨prev, hprev, hlinked, rfl⟩
    · cases h
      exact Or.inl rfl

lemma mem_of_primaryLeader {dag : List Certificate} {round : ℕ} {prev : Certificate}
    (h : con.primaryLeader round dag = some prev) : prev ∈ dag ∧ prev.round = round := by
  rw [primaryLeader] at h
  split at h
  · cases h
  · obtain ⟨hmem, hround, -⟩ := mem_of_certificateOf h
    exact ⟨hmem, hround⟩

/-- `order_leaders` returns the leader and leaders in the dag, of falling
rounds above the last committed one. -/
lemma orderLeaders_eq {ls : List Certificate} (h : con.orderLeaders s leader = some ls) :
    ∃ past, ls = leader :: past ∧ (∀ q ∈ past, q ∈ s.dag ∧ s.lastCommittedRound < q.round) ∧
      (ls.map Certificate.round).Pairwise (· > ·) := by
  obtain ⟨walk, hwalk, rfl⟩ := Option.map_eq_some_iff.mp h
  have hinv := foldlM_induction (I := fun pre walk => ∃ past, walk.1 = leader :: past ∧
      (∀ q ∈ past, q ∈ s.dag ∧ s.lastCommittedRound < q.round ∧ q.round ∈ pre) ∧
        (walk.1.map Certificate.round).Pairwise (· > ·))
    ⟨[], rfl, fun _ hq => absurd hq List.not_mem_nil, List.pairwise_singleton _ _⟩ ?_ hwalk
  · obtain ⟨past, hpast, hmem, hfall⟩ := hinv
    exact ⟨past, hpast, fun q hq => ⟨(hmem q hq).1, (hmem q hq).2.1⟩, hfall⟩
  rintro pre round post walk walk' hl ⟨past, hpast, hmem, hfall⟩ hstep
  obtain ⟨hlow, hhigh, hpassed⟩ := bounds_of_split_reverse hl
  rcases walkLeaders_cases hstep with rfl | ⟨prev, hprev, -, rfl⟩
  · exact ⟨past, hpast, fun q hq => ⟨(hmem q hq).1, (hmem q hq).2.1,
      List.mem_append_left _ (hmem q hq).2.2⟩, hfall⟩
  · obtain ⟨hdag, rfl⟩ := mem_of_primaryLeader hprev
    refine ⟨past ++ [prev], by rw [hpast, List.cons_append], fun q hq => ?_, ?_⟩
    · rcases List.mem_append.mp hq with hq | hq
      · exact ⟨(hmem q hq).1, (hmem q hq).2.1, List.mem_append_left _ (hmem q hq).2.2⟩
      · rw [List.mem_singleton.mp hq]
        exact ⟨hdag, by omega, List.mem_append_right _ (List.mem_singleton.mpr rfl)⟩
    · -- the new leader is below the first one and below those of the rounds before
      rw [List.map_append, List.pairwise_append]
      refine ⟨hfall, List.pairwise_singleton _ _, fun r hr r' hr' => ?_⟩
      rw [List.map_singleton, List.mem_singleton] at hr'
      subst hr'
      rw [hpast, List.map_cons, List.mem_cons] at hr
      rcases hr with rfl | hr
      · omega
      · obtain ⟨q, hq, rfl⟩ := List.mem_map.mp hr
        exact hpassed _ (hmem q hq).2.2

/-! ### The loop over a sub-dag -/

/-- Commit certificates in order. -/
def sendAll (con : MP3Consensus) (flattened : State) (p : State × List Sent)
    (xs : List Certificate) : State × List Sent :=
  xs.foldl (fun p x => (p.1.commit con.gcDepth x, p.2 ++ [⟨x, flattened, p.1⟩])) p

variable {p p' : State × List Sent} {flattened : State}

lemma foldlM_send_eq_some (hp : p.1.Wf) (h : xs.foldlM (con.send flattened) p = some p') :
    p' = con.sendAll flattened p xs := by
  induction xs generalizing p with
  | nil => exact (Option.some.inj h).symm
  | cons x xs ih =>
      obtain ⟨p₁, hsend, hrest⟩ := foldlM_cons_eq_some.mp h
      obtain ⟨s, hs, rfl⟩ := Option.map_eq_some_iff.mp hsend
      obtain rfl := State.update_eq_some hp hs
      exact ih (State.wf_commit hp con.gcDepth x) hrest

lemma foldlM_send_of_fits (hp : p.1.Wf) (hfits : ∀ x ∈ p.1.dag, x.round + con.gcDepth < 2 ^ 64)
    (xs : List Certificate) :
    xs.foldlM (con.send flattened) p = some (con.sendAll flattened p xs) := by
  induction xs generalizing p with
  | nil => rfl
  | cons x xs ih =>
      rw [foldlM_cons_eq_some]
      refine ⟨_, ?_, ih (State.wf_commit hp con.gcDepth x) fun y hy => ?_⟩
      · rw [send, State.update_of_fits hp fun _ => hfits, Option.map_some]
      · exact hfits y (State.mem_commit.mp hy).1

/-- The loop over a sub-dag commits what `order_dag` lists. -/
lemma flatten_eq_some (hp : p.1.Wf) (h : con.flatten p leader = some p') :
    ∃ xs, con.orderDag p.1 leader = some xs ∧ p' = con.sendAll p.1 p xs := by
  rw [flatten] at h
  split at h
  · cases h
  · rename_i xs hxs
    exact ⟨xs, hxs, foldlM_send_eq_some hp h⟩

/-- The loop over a sub-dag does not fail, unless a sum overflows. -/
lemma flatten_of_fits (hp : p.1.Wf) (hfits : ∀ x ∈ p.1.dag, x.round + con.gcDepth < 2 ^ 64)
    (hxs : con.orderDag p.1 leader = some xs) :
    con.flatten p leader = some (con.sendAll p.1 p xs) := by
  rw [flatten, hxs]
  exact foldlM_send_of_fits hp hfits xs

/-- The rule for the loop over a sub-dag. -/
lemma sendAll_induction {I : List Certificate → State × List Sent → Prop} (hinit : I [] p)
    (hsend : ∀ pre x post p, xs = pre ++ x :: post → I pre p →
      I (pre ++ [x]) (p.1.commit con.gcDepth x, p.2 ++ [⟨x, flattened, p.1⟩])) :
    I xs (con.sendAll flattened p xs) :=
  foldl_induction hinit fun pre x post hxs hI => hsend pre x post _ hxs hI

lemma certificates_sendAll (flattened : State) (p : State × List Sent) (xs : List Certificate) :
    (con.sendAll flattened p xs).2.map Sent.certificate = p.2.map Sent.certificate ++ xs :=
  sendAll_induction (I := fun pre p' => p'.2.map Sent.certificate = p.2.map Sent.certificate ++ pre)
    (List.append_nil _).symm fun pre x post p' _ hI => by simp [hI]

/-- Committing extends the sequence. -/
lemma exists_append_sendAll (flattened : State) (p : State × List Sent) (xs : List Certificate) :
    ∃ tail, (con.sendAll flattened p xs).2 = p.2 ++ tail :=
  sendAll_induction (I := fun _ p' => ∃ tail, p'.2 = p.2 ++ tail) ⟨[], (List.append_nil _).symm⟩
    fun _ x _ p' _ ⟨tail, htail⟩ => ⟨tail ++ [⟨x, flattened, p'.1⟩], by
      rw [htail, List.append_assoc]⟩

/-- No certificate that is committed is above the last committed round. -/
lemma round_le_sendAll (flattened : State) (p : State × List Sent) (hx : x ∈ xs) :
    x.round ≤ (con.sendAll flattened p xs).1.lastCommittedRound := by
  refine sendAll_induction (I := fun pre p => ∀ x ∈ pre, x.round ≤ p.1.lastCommittedRound)
    (fun _ hx => absurd hx List.not_mem_nil) ?_ x hx
  intro pre y post p _ hI
  exact List.forall_mem_append.mpr ⟨fun x hx => le_max_of_le_left (hI x hx),
    List.forall_mem_singleton.mpr (le_max_right _ _)⟩

/-- Committing adds nothing to the dag. -/
lemma mem_dag_of_mem_sendAll {c : Certificate} (h : c ∈ (con.sendAll flattened p xs).1.dag) :
    c ∈ p.1.dag :=
  sendAll_induction (I := fun _ p' => ∀ c ∈ p'.1.dag, c ∈ p.1.dag) (fun _ hc => hc)
    (fun _ _ _ _ _ hI c hc => hI c (State.mem_commit.mp hc).1) c h

/-! ### The loops of a commit -/

/-- What the commit of a block of round `bound` keeps of a state. -/
structure Committing (s : State) (bound : ℕ) (p : State × List Sent) : Prop where
  wf : p.1.Wf
  le_bound : p.1.lastCommittedRound ≤ bound
  chain : p.1.preparedChain = s.preparedChain
  height : p.1.nextHeight = s.nextHeight

lemma Committing.sendAll {bound : ℕ} (hp : Committing s bound p)
    (hxs : ∀ x ∈ xs, x.round ≤ bound) : Committing s bound (con.sendAll flattened p xs) := by
  refine sendAll_induction (I := fun _ p => Committing s bound p) hp ?_
  intro pre x post p hpre hp
  exact ⟨State.wf_commit hp.wf _ _, max_le hp.le_bound (hxs x (mem_of_split hpre)), hp.chain,
    hp.height⟩

/-- A slot leader is committed by flattening leaders of rising rounds, each
above all rounds committed, and then the slot leader itself. -/
lemma commitLeader_induction {I : State × List Sent → Prop} {bound : ℕ}
    (hp : Committing s bound p) (hleader : leader.round = bound) (hI : I p)
    (hpast : ∀ p' q xs, Committing s bound p' → I p' → q ∈ p.1.dag →
      p'.1.lastCommittedRound < q.round → q.round < bound → con.orderDag p'.1 q = some xs →
      I (con.sendAll p'.1 p' xs))
    (h : con.commitLeader p leader = some p') :
    ∃ p₁ xs, Committing s bound p₁ ∧ I p₁ ∧ con.orderDag p₁.1 leader = some xs ∧
      p' = con.sendAll p₁.1 p₁ xs := by
  rw [commitLeader] at h
  split at h
  · cases h
  · rename_i ls hls
    obtain ⟨past, rfl, hmem, hfall⟩ := orderLeaders_eq hls
    rw [List.reverse_cons, List.foldlM_append] at h
    obtain ⟨p₁, hloop, hlast⟩ := Option.bind_eq_some_iff.mp h
    have hrise : (past.reverse.map Certificate.round).Pairwise (· < ·) := by
      rw [List.map_reverse, List.pairwise_reverse]
      exact (List.pairwise_cons.mp hfall).2
    have hbelow : ∀ q ∈ past, q.round < bound := fun q hq =>
      hleader ▸ (List.pairwise_cons.mp hfall).1 _ (List.mem_map_of_mem hq)
    -- the rounds committed so far are those before, or those of leaders already flattened
    have hinv := foldlM_induction (I := fun pre p' => Committing s bound p' ∧ I p' ∧
        (p'.1.lastCommittedRound ≤ p.1.lastCommittedRound ∨
          ∃ q ∈ pre, p'.1.lastCommittedRound ≤ q.round)) ⟨hp, hI, Or.inl (le_refl _)⟩ ?_ hloop
    · obtain ⟨xs, hxs, hp'⟩ := flatten_eq_some hinv.1.wf (by
        obtain ⟨p₂, hp₂, heq⟩ := foldlM_cons_eq_some.mp hlast
        cases heq
        exact hp₂)
      exact ⟨p₁, xs, hinv.1, hinv.2.1, hxs, hp'⟩
    rintro pre q post p₂ p₃ hsplit ⟨hp₂, hI₂, hround⟩ hflatten
    have hq : q ∈ past := List.mem_reverse.mp (mem_of_split hsplit)
    have hlt : p₂.1.lastCommittedRound < q.round := by
      rcases hround with hle | ⟨q', hq', hle⟩
      · exact lt_of_le_of_lt hle (hmem q hq).2
      · rw [hsplit, List.map_append, List.pairwise_append] at hrise
        exact lt_of_le_of_lt hle (hrise.2.2 _ (List.mem_map_of_mem hq') _
          (List.mem_map_of_mem (List.mem_cons_self ..)))
    obtain ⟨xs, hxs, rfl⟩ := flatten_eq_some hp₂.wf hflatten
    have hle : ∀ x ∈ xs, x.round ≤ q.round := fun x hx => round_le_of_mem_orderDag hxs hx
    refine ⟨hp₂.sendAll fun x hx => le_trans (hle x hx) (hbelow q hq).le,
      hpast p₂ q xs hp₂ hI₂ (hmem q hq).1 hlt (hbelow q hq) hxs, Or.inr ⟨q, by simp, ?_⟩⟩
    exact (Committing.sendAll (s := p₂.1) ⟨hp₂.wf, hlt.le, rfl, rfl⟩ hle).le_bound

/-- The rule for the commit of a block, over the slot leaders that are done. -/
theorem commitBlock_induction {I : List Certificate → State × List Sent → Prop}
    {block : MacroBlock} (hs : s.Wf) (hbound : s.lastCommittedRound ≤ block.round)
    (hleaders : ∀ l ∈ block.slotQc.leaders, l.round = block.round) (hinit : I [] (s, []))
    (hpast : ∀ done p p' q xs, I done p → Committing s block.round p' → I done p' → q ∈ p.1.dag →
      p'.1.lastCommittedRound < q.round → q.round < block.round →
      con.orderDag p'.1 q = some xs → I done (con.sendAll p'.1 p' xs))
    (hslot : ∀ done l post p xs, block.slotQc.leaders = done ++ l :: post →
      Committing s block.round p → I done p → con.orderDag p.1 l = some xs →
      I (done ++ [l]) (con.sendAll p.1 p xs))
    (h : con.commitBlock s block = some p') :
    Committing s block.round p' ∧ I block.slotQc.leaders p' := by
  refine foldlM_induction (I := fun done p => Committing s block.round p ∧ I done p)
    ⟨⟨hs, hbound, rfl, rfl⟩, hinit⟩ ?_ h
  rintro done l post p p₁ hsplit ⟨hp, hI⟩ hl
  have hround : l.round = block.round := hleaders l (mem_of_split hsplit)
  obtain ⟨p₂, xs, hp₂, hI₂, hxs, rfl⟩ := commitLeader_induction (I := I done) hp hround hI
    (fun p' q xs hp' hI' => hpast done p p' q xs hI hp' hI') hl
  refine ⟨hp₂.sendAll fun x hx => ?_, hslot done l post p₂ xs hsplit hp₂ hI₂ hxs⟩
  exact hround ▸ round_le_of_mem_orderDag hxs hx

end MP3Consensus

end StablecoinSystem
