import StablecoinSystem.Narwhal.Delivery

/-!
A replica that is given an admissible history does not panic, as long as no sum
overflows.

While the dag is pruned by rounds, by authorities and by depth, the rounds above
the last committed one lose nothing, and these are the only rounds that `linked`
asks for. If the sum of a round and the depth wraps, the round is lost however
high it is.

* `Admissible`: each certificate above round zero has parents, in the round
  before, and comes after them;
* `Fits`: the sums that a history leads to do not overflow;
* `Grounded`: each round above the last committed one that has been delivered is
  in the dag;
* `Grounded.exists_orderLeaders`, `Grounded.exists_commitBlock`: no walk and no
  commit fails in such a state;
* `not_halted_of_admissible`: no replica halts;
* `halted_of_wrap`: one does if a sum wraps.
-/

namespace StablecoinSystem

namespace MP3Consensus

/-- What a replica may be given: certificates of the genesis, and certificates
above round zero that have parents, each in the round before and delivered
earlier. A certificate may come more than once. -/
def Admissible (con : MP3Consensus) (order : List Certificate) : Prop :=
  ForallSplit (fun pre c => (c.round = 0 → c ∈ con.genesis) ∧
    (1 ≤ c.round → c.parents ≠ [] ∧ con.HasParents pre c)) order

instance (con : MP3Consensus) (order : List Certificate) : Decidable (con.Admissible order) :=
  inferInstanceAs (Decidable (ForallSplit _ _))

/-- No sum that a replica computes for a history overflows. The indices of slots and
the stakes matter only if overflows are checked. -/
structure Fits (con : MP3Consensus) (order : List Certificate) : Prop where
  depth : ∀ c ∈ con.genesis ++ order, c.round + con.gcDepth < 2 ^ 64
  slots : con.overflowChecks = true → ∀ c ∈ order, c.round + con.slots ≤ 2 ^ 64
  stakes : con.overflowChecks = true → con.committee.totalStake + 2 < 2 ^ 32

instance (con : MP3Consensus) (order : List Certificate) : Decidable (con.Fits order) :=
  decidable_of_iff (_ ∧ _ ∧ _) ⟨fun h => ⟨h.1, h.2.1, h.2.2⟩, fun h => ⟨h.1, h.2, h.3⟩⟩

variable {con : MP3Consensus} {order delivered : List Certificate} {c leader prev : Certificate}
  {s : State} {r : Replica}

lemma Fits.of_append {more : List Certificate} (h : con.Fits (order ++ more)) : con.Fits order where
  depth c hc := h.depth c (by
    rw [← List.append_assoc]
    exact List.mem_append_left _ hc)
  slots hchecks c hc := h.slots hchecks c (List.mem_append_left _ hc)
  stakes := h.stakes

/-- The election of leaders does not panic if nothing overflows. -/
lemma Fits.electionPanics_eq_false {dag : List Certificate} (h : con.Fits order) (hc : c ∈ order)
    (hslots : dag.Pairwise fun a b => ¬(a.round = b.round ∧ a.origin = b.origin)) :
    con.electionPanics (c.round - 1) dag = false := by
  cases hchecks : con.overflowChecks with
  | false => rw [electionPanics, hchecks, Bool.false_and, Bool.false_and]
  | true =>
      have hstakes := h.stakes hchecks
      have hindex : ¬2 ^ 64 < c.round - 1 + con.slots := by
        have hround := h.slots hchecks c hc
        omega
      have hsupport : ((con.slotLeaders (c.round - 1) dag).any fun leader =>
          decide (2 ^ 32 ≤ con.supportStake (c.round - 1 + 1) leader dag)) = false := by
        refine List.any_eq_false.mpr fun leader _ => ?_
        have hle := con.supportStake_le hslots (c.round - 1 + 1) leader
        rw [decide_eq_true_eq]
        omega
      rw [electionPanics, hsupport, decide_eq_false hindex, decide_eq_false (not_le.mpr hstakes),
        Bool.or_false, Bool.and_false, Bool.or_false, Bool.and_false]

namespace Admissible

/-- Certificates of round zero have no parents. -/
lemma parents_eq_nil (h : con.Admissible order) (hc : c ∈ con.genesis ++ order)
    (hround : c.round = 0) : c.parents = [] := by
  have hgenesis : c ∈ con.genesis := by
    rcases List.mem_append.mp hc with hc | hc
    · exact hc
    · obtain ⟨pre, post, hsplit⟩ := List.append_of_mem hc
      exact (h pre c post hsplit).1 hround
  obtain ⟨name, -, rfl⟩ := List.mem_map.mp hgenesis
  rfl

/-- Above round one, a certificate comes after one of the round before. -/
lemma exists_parent (h : con.Admissible order) (hc : c ∈ order) (hround : 2 ≤ c.round) :
    ∃ p ∈ order, p.round + 1 = c.round := by
  obtain ⟨pre, post, rfl⟩ := List.append_of_mem hc
  obtain ⟨hne, hparents⟩ := (h pre c post rfl).2 (by omega)
  obtain ⟨d, hd⟩ := List.exists_mem_of_ne_nil _ hne
  obtain ⟨p, hp, -, hpround⟩ := hparents d hd
  rcases List.mem_append.mp hp with hp | hp
  · have hzero := Certificate.round_of_mem_genesis hp
    omega
  · exact ⟨p, List.mem_append_left _ hp, hpround⟩

/-- All rounds below a certificate have been delivered. -/
lemma exists_round (h : con.Admissible order) (hc : c ∈ order) {round : ℕ} (hpos : 1 ≤ round)
    (hle : round ≤ c.round) : ∃ p ∈ order, p.round = round := by
  induction hn : c.round - round generalizing c with
  | zero => exact ⟨c, hc, by omega⟩
  | succ n ih =>
      obtain ⟨p, hp, hpround⟩ := h.exists_parent hc (by omega)
      exact ih hp (by omega) (by omega)

end Admissible

end MP3Consensus

open MP3Consensus

/-- The dag holds what has been delivered, one certificate for each round and
origin, and each round above the last committed one that has been delivered is in
the dag. -/
structure Grounded (con : MP3Consensus) (delivered : List Certificate) (s : State) : Prop where
  admissible : con.Admissible delivered
  fits : con.Fits delivered
  wf : s.Wf
  slots : s.dag.Pairwise fun a b => ¬(a.round = b.round ∧ a.origin = b.origin)
  delivered_of_dag : ∀ c ∈ s.dag, c ∈ con.genesis ++ delivered
  exists_of_delivered : ∀ c ∈ delivered, s.lastCommittedRound < c.round →
    ∃ x ∈ s.dag, x.round = c.round

namespace Grounded

variable {con : MP3Consensus} {delivered : List Certificate} {c leader prev : Certificate}
  {s : State} {r : Replica} {p : State × List Sent}

/-! ### What a grounded state keeps -/

lemma insert (hs : Grounded con delivered s) (h : con.Admissible (delivered ++ [c]))
    (hfits : con.Fits (delivered ++ [c])) :
    Grounded con (delivered ++ [c]) { s with dag := insertCertificate c s.dag } where
  admissible := h
  fits := hfits
  wf := ⟨hs.wf.bounded, hs.wf.attained⟩
  slots := by
    refine List.pairwise_cons.mpr ⟨fun x hx hslot => ?_, hs.slots.filter _⟩
    exact of_decide_eq_true (List.mem_filter.mp hx).2 ⟨hslot.1.symm, hslot.2.symm⟩
  delivered_of_dag := fun x hx => by
    rw [← List.append_assoc]
    rcases mem_insertCertificate.mp hx with rfl | ⟨hx, -⟩
    · exact List.mem_append_right _ (List.mem_singleton.mpr rfl)
    · exact List.mem_append_left _ (hs.delivered_of_dag x hx)
  exists_of_delivered := fun x hx hlt => by
    -- what is overwritten is replaced by a certificate of the same round
    by_cases hround : x.round = c.round
    · exact ⟨c, mem_insertCertificate.mpr (Or.inl rfl), hround.symm⟩
    · have hold : x ∈ delivered := by
        rcases List.mem_append.mp hx with hx | hx
        · exact hx
        · exact absurd (congrArg Certificate.round (List.mem_singleton.mp hx)) hround
      obtain ⟨y, hy, hyround⟩ := hs.exists_of_delivered x hold hlt
      exact ⟨y, mem_insertCertificate.mpr (Or.inr ⟨hy, fun h => hround (hyround ▸ h.1)⟩), hyround⟩

/-- The prepared chain does not matter. -/
lemma withChain (hs : Grounded con delivered s) (chain : List MacroBlock) (height : ℕ) :
    Grounded con delivered { s with preparedChain := chain, nextHeight := height } :=
  { hs with wf := ⟨hs.wf.bounded, hs.wf.attained⟩ }

lemma commit (hs : Grounded con delivered s) (c : Certificate) :
    Grounded con delivered (s.commit con.gcDepth c) where
  admissible := hs.admissible
  fits := hs.fits
  wf := State.wf_commit hs.wf _ _
  slots := hs.slots.filter _
  delivered_of_dag := fun x hx => hs.delivered_of_dag x (State.mem_commit.mp hx).1
  exists_of_delivered := fun x hx hlt => by
    obtain ⟨y, hy, hround⟩ := hs.exists_of_delivered x hx (lt_of_le_of_lt (le_max_left _ _) hlt)
    have hmem : y ∈ atRound x.round (s.commit con.gcDepth c).dag := by
      rw [State.atRound_commit hs.wf (fun _ _ _ => hs.fits.depth x (List.mem_append_right _ hx)) hlt]
      exact mem_atRound.mpr ⟨hy, hround⟩
    exact ⟨y, mem_atRound.mp hmem⟩

lemma sendAll (hp : Grounded con delivered p.1) (flattened : State) (xs : List Certificate) :
    Grounded con delivered (con.sendAll flattened p xs).1 :=
  sendAll_induction (I := fun _ p => Grounded con delivered p.1) hp
    fun _ x _ _ _ hp => hp.commit x

/-! ### Nothing fails in a grounded state -/

/-- The rounds between a delivered leader and an uncommitted one are all
there. -/
lemma exists_linked (hs : Grounded con delivered s) (hleader : leader ∈ con.genesis ++ delivered)
    (hprev : s.lastCommittedRound < prev.round) :
    ∃ found, con.linked leader prev s.dag = some found := by
  have hloop := exists_foldlM (f := con.linkedParents s.dag) (b := [leader])
    (l := (List.range' prev.round (leader.round - prev.round)).reverse) (I := fun _ _ => True)
    trivial ?_
  · obtain ⟨parents, hparents, -⟩ := hloop
    exact ⟨_, Option.map_eq_some_iff.mpr ⟨parents, hparents, rfl⟩⟩
  intro pre round post parents hsplit _
  obtain ⟨hlow, hhigh, -⟩ := bounds_of_split_reverse hsplit
  have hdelivered : leader ∈ delivered := by
    rcases List.mem_append.mp hleader with hgenesis | hdelivered
    · have hzero := Certificate.round_of_mem_genesis hgenesis
      omega
    · exact hdelivered
  obtain ⟨q, hq, hqround⟩ := hs.admissible.exists_round hdelivered (by omega)
    (show round ≤ leader.round by omega)
  obtain ⟨x, hx, hxround⟩ := hs.exists_of_delivered q hq (by omega)
  obtain ⟨xs, hxs, -⟩ := con.exists_linkedParents hx (hxround.trans hqround) parents
  exact ⟨xs, hxs, trivial⟩

lemma exists_orderLeaders (hs : Grounded con delivered s)
    (hleader : leader ∈ con.genesis ++ delivered) :
    ∃ leaders, con.orderLeaders s leader = some leaders := by
  -- the leader that the walk has reached has been delivered
  have hloop := exists_foldlM (f := con.walkLeaders s.dag) (b := ([leader], leader))
    (l := (List.range' (s.lastCommittedRound + 1)
      (leader.round - 1 - s.lastCommittedRound)).reverse)
    (I := fun _ walk => walk.2 ∈ con.genesis ++ delivered) hleader ?_
  · obtain ⟨walk, hwalk, -⟩ := hloop
    exact ⟨_, Option.map_eq_some_iff.mpr ⟨walk, hwalk, rfl⟩⟩
  intro pre round post walk hsplit hwalk
  obtain ⟨hlow, -, -⟩ := bounds_of_split_reverse hsplit
  rw [walkLeaders]
  cases hprev : con.primaryLeader round s.dag with
  | none => exact ⟨walk, rfl, hwalk⟩
  | some prev =>
      obtain ⟨hdag, hprevround⟩ := mem_of_primaryLeader hprev
      obtain ⟨found, hfound⟩ := hs.exists_linked hwalk
        (show s.lastCommittedRound < prev.round by omega)
      cases found with
      | false => exact ⟨walk, by simp only [hfound], hwalk⟩
      | true =>
          exact ⟨(walk.1 ++ [prev], prev), by simp only [hfound], hs.delivered_of_dag prev hdag⟩

lemma depth (hs : Grounded con delivered s) :
    ∀ x ∈ s.dag, x.round + con.gcDepth < 2 ^ 64 :=
  fun x hx => hs.fits.depth x (hs.delivered_of_dag x hx)

lemma exists_flatten (hp : Grounded con delivered p.1)
    (hleader : leader ∈ con.genesis ++ delivered) :
    ∃ p', con.flatten p leader = some p' ∧ Grounded con delivered p'.1 := by
  obtain ⟨xs, hxs⟩ := con.exists_orderDag
    (fun c hc => hp.admissible.parents_eq_nil (hp.delivered_of_dag c hc))
    (hp.admissible.parents_eq_nil hleader)
    (List.forall_mem_cons.mpr ⟨hp.fits.depth leader hleader, hp.depth⟩)
  exact ⟨_, flatten_of_fits hp.wf hp.depth hxs, hp.sendAll _ _⟩

lemma exists_commitLeader (hp : Grounded con delivered p.1)
    (hleader : leader ∈ con.genesis ++ delivered) :
    ∃ p', con.commitLeader p leader = some p' ∧ Grounded con delivered p'.1 := by
  obtain ⟨leaders, hleaders⟩ := hp.exists_orderLeaders hleader
  obtain ⟨past, rfl, hpast, -⟩ := orderLeaders_eq hleaders
  have hdelivered : ∀ q ∈ leader :: past, q ∈ con.genesis ++ delivered :=
    List.forall_mem_cons.mpr ⟨hleader, fun q hq => hp.delivered_of_dag q (hpast q hq).1⟩
  obtain ⟨p', hp', hgrounded⟩ := exists_foldlM (f := con.flatten) (l := (leader :: past).reverse)
    (I := fun _ p => Grounded con delivered p.1) hp fun pre q post p hsplit hp =>
      hp.exists_flatten (hdelivered q (List.mem_reverse.mp (mem_of_split hsplit)))
  exact ⟨p', by rw [commitLeader, hleaders]; exact hp', hgrounded⟩

/-- A block of delivered leaders can be committed. -/
lemma exists_commitBlock (hs : Grounded con delivered s) {block : MacroBlock}
    (hleaders : ∀ l ∈ block.slotQc.leaders, l ∈ con.genesis ++ delivered) :
    ∃ p', con.commitBlock s block = some p' ∧ Grounded con delivered p'.1 :=
  exists_foldlM (f := con.commitLeader) (I := fun _ p => Grounded con delivered p.1) hs
    fun _ l _ _ hsplit hp => hp.exists_commitLeader (hleaders l (mem_of_split hsplit))

/-- The loop that commits does not halt. -/
lemma commitChain (hr : Chained con delivered r) (hs : Grounded con delivered r.state)
    (hrunning : r.halted = false) (fuel : ℕ) :
    Grounded con delivered (con.commitChain fuel r).state ∧
      (con.commitChain fuel r).halted = false := by
  induction fuel generalizing r with
  | zero => exact ⟨hs, hrunning⟩
  | succ fuel ih =>
      rw [MP3Consensus.commitChain]
      split
      · rename_i block b b' rest hchain
        have hmem : block ∈ r.state.preparedChain := by simp [hchain]
        obtain ⟨⟨s, sequence⟩, hcommit, hcommitted⟩ :=
          (hs.withChain (b :: b' :: rest) _).exists_commitBlock (hr.delivered_of_leader block hmem)
        rw [hcommit]
        exact ih (hr.commit hchain hcommit) hcommitted hrunning
      · exact ⟨hs, hrunning⟩

/-- Receiving a certificate does not halt. -/
lemma receive (hr : Chained con delivered r) (hs : Grounded con delivered r.state)
    (hrunning : r.halted = false) (h : con.Admissible (delivered ++ [c]))
    (hfits : con.Fits (delivered ++ [c])) :
    Grounded con (delivered ++ [c]) (con.receive r c).state ∧
      (con.receive r c).halted = false := by
  have hinsert : Grounded con (delivered ++ [c]) (r.insert c).state := hs.insert h hfits
  rcases receive_cases con r c with ⟨hhalted, -⟩ | ⟨-, heq, -⟩ | ⟨-, -, -, hpanics⟩ |
    ⟨block, -, hlcr, hblock, heq⟩
  · rw [hrunning] at hhalted
    cases hhalted
  · rw [heq]
    exact ⟨hinsert, hrunning⟩
  · have hmem : c ∈ delivered ++ [c] := List.mem_append_right _ (List.mem_singleton_self c)
    rw [hfits.electionPanics_eq_false hmem hinsert.slots] at hpanics
    cases hpanics
  · rw [heq]
    exact Grounded.commitChain ((hr.insert c).prepare hlcr hblock) (hinsert.withChain _ _)
      hrunning _

end Grounded

namespace MP3Consensus

/-- The state in which a replica starts. -/
lemma grounded_start {con : MP3Consensus} (hfits : con.Fits []) :
    Grounded con [] (State.new con.genesis) where
  admissible := fun pre c post hsplit => by simp at hsplit
  fits := hfits
  wf := (Chained.start con).wf
  slots := by
    have hkeys : con.committee.keys.Nodup := Committee.nodup_keys
    exact List.Pairwise.map _ (fun name name' (h : name ≠ name') hslot => h hslot.2) hkeys
  delivered_of_dag := (Chained.start con).delivered_of_dag
  exists_of_delivered := fun _ hc => absurd hc List.not_mem_nil

/-- A run of an admissible history stays grounded and does not halt. -/
theorem grounded_run {con : MP3Consensus} {order : List Certificate} (h : con.Admissible order)
    (hfits : con.Fits order) :
    Grounded con order (con.run order).state ∧ (con.run order).halted = false := by
  refine foldl_induction (f := con.receive) (b := con.start) (I := fun pre r =>
    Grounded con pre r.state ∧ r.halted = false) ?_ ?_
  · rw [← List.nil_append order] at hfits
    exact ⟨grounded_start hfits.of_append, rfl⟩
  · rintro pre c post rfl ⟨hgrounded, hrunning⟩
    rw [List.append_cons] at h hfits
    exact hgrounded.receive (chained_run con pre) hrunning (ForallSplit.of_append h)
      hfits.of_append

/-- **No replica panics**, whatever the committee and the slots, and whatever
admissible history it is given, unless a sum overflows. -/
theorem not_halted_of_admissible (con : MP3Consensus) (order : List Certificate)
    (h : con.Admissible order) (hfits : con.Fits order) : (con.run order).halted = false :=
  (grounded_run h hfits).2

/-- The certificates of the second of two authorities, round after round. -/
def soloChain (rounds : ℕ) : List Certificate :=
  (List.range rounds).map fun i => certify (i + 1) 1 [1] (List.pairwise_singleton _ _)

theorem not_halted_soloChain : twoAuthorities.Admissible (soloChain 6) ∧
    twoAuthorities.Fits (soloChain 6) ∧
    (twoAuthorities.run (soloChain 6)).committed.length = 1 ∧
    (twoAuthorities.run (soloChain 6)).halted = false :=
  ⟨by decide +kernel, by decide +kernel, by decide +kernel,
    not_halted_of_admissible twoAuthorities (soloChain 6) (by decide +kernel) (by decide +kernel)⟩

/-- The two authorities with a depth of the garbage collector to which three cannot be
added. -/
def wideDepth : MP3Consensus := { twoAuthorities with gcDepth := 2 ^ 64 - 3 }

/-- The same with overflow checks. -/
def wideDepthChecked : MP3Consensus := { wideDepth with overflowChecks := true }

/-- Eight rounds, each certificate with all of the round before as parents. The leaders
of rounds one, four and six are prepared first, and that of round two is in the dag. -/
def throughRoundThree : List Certificate :=
  [certifyBoth 1 1, certifySecond 2 0, certifySecond 2 1, certifyBoth 3 0, certifyFirst 4 0,
    certifyFirst 5 1, certifySecond 6 0, certifyFirst 7 1, certifySecond 8 1]

/-- **A sum that wraps loses a round**: the commit of round one drops round three, and
`linked` does not find it on the way from the leader of round four to that of round two.
With overflow checks the task panics before. -/
theorem halted_of_wrap : wideDepth.Admissible throughRoundThree ∧
    wideDepth.linked (certifyFirst 4 0) (certifySecond 2 0)
      (wideDepth.run (throughRoundThree.take 8)).state.dag = none ∧
    (wideDepth.run throughRoundThree).halted = true ∧
    (wideDepthChecked.run throughRoundThree).halted = true := by
  decide +kernel

end MP3Consensus

end StablecoinSystem
