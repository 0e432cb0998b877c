import StablecoinSystem.Narwhal.Agreement
import StablecoinSystem.Narwhal.Tusk

/-!
Agreement of Tusk: the outputs of two replicas are prefixes of one another.

A leader that has been committed is supported by a third of the stake in the next
round, so every certificate two rounds above refers to one of its children, and
every later leader is linked to it. So the leaders that a replica has committed
are those that the whole dag links to the last of them (`whole`), in whatever
order the certificates have come. Stakes whose sums wrap make the thresholds too low
for that, so no sum may overflow (`Dag.Fits`).

* `linked_of_supported`: every later certificate is linked to a supported leader;
* `orderLeaders_whole_append`: the leaders linked to a later leader extend those
  linked to an earlier one;
* `refines_whole`: a replica has sent what a replica that holds the whole dag
  sends when it commits the same leader at once;
* `tusk_agreement`: the outputs are prefixes of one another.
-/

namespace StablecoinSystem

open MP3Consensus (Dag Delivered)

/-! ### Support and quorums -/

namespace MP3Consensus

variable {con : MP3Consensus} {dag : Dag con} {y z leader : Certificate}

/-- Certificates of one round that are a quorum and others of the round that have
the validity threshold have one in common. -/
lemma Dag.exists_common (dag : Dag con) (hstakes : con.committee.Fits)
    {xs ys : List Certificate} {round : ℕ} (hxs : xs.Nodup) (hys : ys.Nodup)
    (hround : ∀ x ∈ xs ++ ys, x ∈ con.genesis ++ dag.certificates ∧ x.round = round)
    (hquorum : con.committee.quorumThreshold ≤
      (xs.map fun x => con.committee.stake x.origin).sum)
    (hvalidity : con.committee.validityThreshold ≤
      (ys.map fun y => con.committee.stake y.origin).sum) : ∃ z ∈ xs, z ∈ ys := by
  have hinj : ∀ x ∈ xs ++ ys, ∀ y ∈ xs ++ ys, x.origin = y.origin → x = y :=
    fun x hx y hy horigin => dag.unequivocal_append x (hround x hx).1 y (hround y hy).1 horigin
      ((hround x hx).2.trans (hround y hy).2.symm)
  have hleft : ∀ x ∈ xs, x ∈ xs ++ ys := fun x hx => List.mem_append_left _ hx
  have hright : ∀ y ∈ ys, y ∈ xs ++ ys := fun y hy => List.mem_append_right _ hy
  obtain ⟨name, hname, hname'⟩ := Committee.exists_common_of_validity hstakes
    (hxs.map_on fun x hx y hy => hinj x (hleft x hx) y (hleft y hy))
    (hys.map_on fun x hx y hy => hinj x (hright x hx) y (hright y hy))
    (by rw [List.map_map]; exact hquorum) (by rw [List.map_map]; exact hvalidity)
  obtain ⟨x, hx, rfl⟩ := List.mem_map.mp hname
  obtain ⟨y, hy, horigin⟩ := List.mem_map.mp hname'
  exact ⟨x, hx, hinj y (hright y hy) x (hleft x hx) horigin ▸ hy⟩

/-- A parent is of the round before. -/
lemma Dag.round_of_parent (hy : y ∈ dag.certificates) (hparent : con.digest z ∈ y.parents) :
    z.round + 1 = y.round := by
  obtain ⟨p, -, hdigest, hround⟩ := dag.parents y hy _ hparent
  rw [(digest_inj hdigest).2.1] at hround
  exact hround

/-- **A certificate two rounds above a supported leader has a child of the leader
among its parents.** -/
theorem Dag.exists_supporter (hdag : dag.Fits) (hy : y ∈ dag.certificates)
    (hround : y.round = leader.round + 2)
    (hsupport : con.committee.validityThreshold ≤
      con.support (leader.round + 1) leader (con.genesis ++ dag.certificates)) :
    ∃ z ∈ con.genesis ++ dag.certificates, z.round = leader.round + 1 ∧
      con.digest z ∈ y.parents ∧ con.digest leader ∈ z.parents := by
  have hwhole := dag.nodup_append hdag.nodup
  have hround' : ∀ x ∈ (con.genesis ++ dag.certificates).filter
        (fun p => decide (con.digest p ∈ y.parents)) ++
      (atRound (leader.round + 1) (con.genesis ++ dag.certificates)).filter
        (fun x => decide (con.digest leader ∈ x.parents)),
      x ∈ con.genesis ++ dag.certificates ∧ x.round = leader.round + 1 := by
    intro x hx
    rcases List.mem_append.mp hx with hx | hx
    · obtain ⟨hmem, hparent⟩ := List.mem_filter.mp hx
      have hbelow := Dag.round_of_parent hy (of_decide_eq_true hparent)
      exact ⟨hmem, by omega⟩
    · exact mem_atRound.mp (List.mem_of_mem_filter hx)
  obtain ⟨z, hparent, hchild⟩ := dag.exists_common hdag.stakes (hwhole.filter _)
    ((hwhole.filter _).filter _) hround' (dag.quorum y hy) (le_trans hsupport (Nat.mod_le _ _))
  obtain ⟨hmem, hzround⟩ := mem_atRound.mp (List.mem_of_mem_filter hchild)
  exact ⟨z, hmem, hzround, of_decide_eq_true (List.mem_filter.mp hparent).2,
    of_decide_eq_true (List.mem_filter.mp hchild).2⟩

/-! ### Later certificates are linked to a supported leader -/

/-- The rounds of `linked` from certificates of the dag end in certificates of the
dag. -/
lemma Dag.exists_frontier (dag : Dag con) {bottom : ℕ} (hbottom : 1 ≤ bottom) (n : ℕ)
    {xs : List Certificate} (hne : xs ≠ [])
    (hxs : ∀ x ∈ xs, x ∈ dag.certificates ∧ x.round = bottom + n) :
    ∃ ys, (List.range' bottom n).reverse.foldlM
        (con.linkedParents (con.genesis ++ dag.certificates)) xs = some ys ∧
      ys ≠ [] ∧ ∀ y ∈ ys, y ∈ dag.certificates ∧ y.round = bottom := by
  induction n generalizing xs with
  | zero => exact ⟨xs, rfl, hne, hxs⟩
  | succ n ih =>
      obtain ⟨x, hx⟩ := List.exists_mem_of_ne_nil xs hne
      obtain ⟨p, hp, hparent⟩ := dag.exists_parent (hxs x hx).1
      have hround := Dag.round_of_parent (hxs x hx).1 hparent
      rw [(hxs x hx).2] at hround
      have hpround : p.round = bottom + n := by omega
      obtain ⟨xs₁, hxs₁, hmem⟩ := con.exists_linkedParents hp hpround xs
      have hne₁ : xs₁ ≠ [] :=
        List.ne_nil_of_mem ((hmem p).mpr ⟨⟨hp, hpround⟩, x, hx, hparent⟩)
      have hmem₁ : ∀ c ∈ xs₁, c ∈ dag.certificates ∧ c.round = bottom + n := by
        intro c hc
        obtain ⟨⟨hc, hcround⟩, -⟩ := (hmem c).mp hc
        refine ⟨(List.mem_append.mp hc).resolve_left fun hgenesis => ?_, hcround⟩
        have hzero := Certificate.round_of_mem_genesis hgenesis
        omega
      obtain ⟨ys, hys, hynil, hymem⟩ := ih hne₁ hmem₁
      rw [List.range'_1_concat, List.reverse_append, List.reverse_singleton,
        List.singleton_append]
      exact ⟨ys, foldlM_cons_eq_some.mpr ⟨xs₁, hxs₁, hys⟩, hynil, hymem⟩

/-- **Every certificate two rounds or more above a supported leader is linked to
it.** -/
theorem Dag.linked_of_supported (hdag : dag.Fits)
    (hleader : leader ∈ con.genesis ++ dag.certificates)
    (hsupport : con.committee.validityThreshold ≤
      con.support (leader.round + 1) leader (con.genesis ++ dag.certificates))
    (hy : y ∈ dag.certificates) (hround : leader.round + 2 ≤ y.round) :
    con.linked y leader (con.genesis ++ dag.certificates) = some true := by
  obtain ⟨n, hn⟩ := Nat.exists_eq_add_of_le hround
  obtain ⟨ys, hys, hne, hmem⟩ := dag.exists_frontier (show 1 ≤ leader.round + 2 by omega) n
    (List.cons_ne_nil y []) (List.forall_mem_singleton.mpr ⟨hy, hn⟩)
  -- a parent of the frontier two rounds above is a child of the leader
  obtain ⟨x, hx⟩ := List.exists_mem_of_ne_nil ys hne
  obtain ⟨z, hz, hzround, hparent, hchild⟩ :=
    Dag.exists_supporter hdag (hmem x hx).1 (hmem x hx).2 hsupport
  obtain ⟨zs, hzs, hzmem⟩ := con.exists_linkedParents hz hzround ys
  have hzzs : z ∈ zs := (hzmem z).mpr ⟨⟨hz, hzround⟩, x, hx, hparent⟩
  obtain ⟨ls, hls, hlmem⟩ := con.exists_linkedParents hleader rfl zs
  have hlls : leader ∈ ls := (hlmem leader).mpr ⟨⟨hleader, rfl⟩, z, hzzs, hchild⟩
  have hrange : (List.range' leader.round (y.round - leader.round)).reverse =
      (List.range' (leader.round + 2) n).reverse ++ [leader.round + 1, leader.round] := by
    have hlength : y.round - leader.round = n + 1 + 1 := by omega
    rw [hlength, List.range'_succ, List.range'_succ]
    simp
  have hloop : (List.range' leader.round (y.round - leader.round)).reverse.foldlM
      (con.linkedParents (con.genesis ++ dag.certificates)) [y] = some ls := by
    rw [hrange, List.foldlM_append, hys]
    exact foldlM_cons_eq_some.mpr ⟨zs, hzs, foldlM_cons_eq_some.mpr ⟨ls, hls, rfl⟩⟩
  rw [linked, hloop, Option.map_some, Option.some.injEq, List.any_eq_true]
  exact ⟨leader, hlls, Certificate.eq_iff.mpr ⟨rfl, rfl, rfl⟩⟩

/-! ### Dags that agree above a round -/

variable {certificates certificates' : List Certificate}

lemma primaryLeader_congr {round : ℕ}
    (h : atRound round certificates = atRound round certificates') :
    con.primaryLeader round certificates = con.primaryLeader round certificates' := by
  rw [primaryLeader, primaryLeader]
  split
  · rfl
  · rw [certificateOf, certificateOf, h]

lemma linked_congr {prev : Certificate}
    (h : ∀ round, prev.round ≤ round → atRound round certificates = atRound round certificates') :
    con.linked leader prev certificates = con.linked leader prev certificates' := by
  rw [linked, linked]
  congr 1
  refine foldlM_congr (I := fun _ _ => True) trivial fun pre round post xs hsplit _ => ?_
  rw [linkedParents, linkedParents, h round (bounds_of_split_reverse hsplit).1]
  exact ⟨rfl, fun _ _ => trivial⟩

/-- A walk over rounds where two dags agree. -/
lemma foldlM_walkLeaders_congr {low : ℕ} {rounds : List ℕ}
    {walk : List Certificate × Certificate} (hlow : ∀ r ∈ rounds, low ≤ r)
    (h : ∀ round, low ≤ round → atRound round certificates = atRound round certificates') :
    rounds.foldlM (con.walkLeaders certificates) walk =
      rounds.foldlM (con.walkLeaders certificates') walk := by
  refine foldlM_congr (I := fun _ _ => True) trivial fun pre round post walk hsplit _ =>
    ⟨?_, fun _ _ => trivial⟩
  have hround := hlow round (mem_of_split hsplit)
  rw [walkLeaders, walkLeaders, primaryLeader_congr (h round hround)]
  cases hprev : con.primaryLeader round certificates' with
  | none => rfl
  | some prev =>
      obtain ⟨-, rfl⟩ := mem_of_primaryLeader hprev
      have hlinked : con.linked walk.2 prev certificates = con.linked walk.2 prev certificates' :=
        linked_congr fun r hr => h r (le_trans hround hr)
      simp only [hlinked]

/-- A walk does not look at the leaders it has listed before the last. -/
lemma foldlM_walkLeaders_append (listed : List Certificate)
    (walk : List Certificate × Certificate) {rounds : List ℕ} :
    rounds.foldlM (con.walkLeaders certificates) (listed ++ walk.1, walk.2) =
      (rounds.foldlM (con.walkLeaders certificates) walk).map fun w => (listed ++ w.1, w.2) := by
  induction rounds generalizing walk with
  | nil => rfl
  | cons round rounds ih =>
      have hstep : con.walkLeaders certificates (listed ++ walk.1, walk.2) round =
          (con.walkLeaders certificates walk round).map fun w => (listed ++ w.1, w.2) := by
        rw [walkLeaders, walkLeaders]
        cases con.primaryLeader round certificates with
        | none => rfl
        | some prev =>
            simp only
            rcases con.linked walk.2 prev certificates with _ | _ | _
            · rfl
            · rfl
            · simp only [Option.map_some, List.append_assoc]
      rw [List.foldlM_cons, List.foldlM_cons, hstep]
      cases con.walkLeaders certificates walk round with
      | none => rfl
      | some walk' => exact ih walk'

/-- Committing leaders does not look at what has been sent. -/
lemma foldlM_flatten_append (con : MP3Consensus) (sent : List Sent) (p : State × List Sent)
    (ls : List Certificate) :
    ls.foldlM con.flatten (p.1, sent ++ p.2) =
      (ls.foldlM con.flatten p).map fun q => (q.1, sent ++ q.2) := by
  have hsend : ∀ (flattened : State) (xs : List Certificate) (p : State × List Sent),
      xs.foldlM (con.send flattened) (p.1, sent ++ p.2) =
        (xs.foldlM (con.send flattened) p).map fun q => (q.1, sent ++ q.2) := by
    intro flattened xs
    induction xs with
    | nil => exact fun _ => rfl
    | cons x xs ih =>
        intro p
        rw [List.foldlM_cons, List.foldlM_cons, send, send]
        cases p.1.update con.overflowChecks con.gcDepth x with
        | none => rfl
        | some s =>
            rw [Option.map_some, List.append_assoc]
            exact ih (s, p.2 ++ [⟨x, flattened, p.1⟩])
  induction ls generalizing p with
  | nil => rfl
  | cons l ls ih =>
      rw [List.foldlM_cons, List.foldlM_cons, flatten, flatten]
      cases con.orderDag p.1 l with
      | none => rfl
      | some xs =>
          simp only [hsend]
          cases xs.foldlM (con.send p.1) p with
          | none => rfl
          | some q => exact ih q

end MP3Consensus

/-! ### A replica with the whole dag -/

lemma leaderRounds_eq_append {low mid high : ℕ} (htwo : 2 ≤ low) (hlow : low ≤ mid)
    (hmid : mid ≤ high) (heven : (high - mid) % 2 = 0) :
    leaderRounds low high = leaderRounds (mid + 2) high ++ mid :: leaderRounds low (mid - 2) := by
  refine (pairwise_leaderRounds low high).eq_of_mem_iff ?_ fun r => ?_
  · refine List.pairwise_append.mpr ⟨pairwise_leaderRounds _ _, List.pairwise_cons.mpr
      ⟨fun r hr => ?_, pairwise_leaderRounds _ _⟩, fun r hr r' hr' => ?_⟩
    · have hle := (mem_leaderRounds.mp hr).2.1
      omega
    · have hle := (mem_leaderRounds.mp hr).1
      rcases List.mem_cons.mp hr' with rfl | hr'
      · omega
      · have hle' := (mem_leaderRounds.mp hr').2.1
        omega
  · simp only [List.mem_append, List.mem_cons, mem_leaderRounds]
    omega

namespace Consensus

variable {con : Consensus} {dag : Dag con.common}

/-- The state of a replica that holds the whole dag from the start. -/
def whole (dag : Dag con.common) : State :=
  { State.new con.common.genesis with dag := con.common.genesis ++ dag.certificates }

/-- A leader that a replica with the whole dag can commit. -/
structure Supported (dag : Dag con.common) (leader : Certificate) : Prop where
  even : leader.round % 2 = 0
  two_le : 2 ≤ leader.round
  primary : con.leader leader.round (con.common.genesis ++ dag.certificates) = some leader
  support : con.committee.validityThreshold ≤ con.common.support (leader.round + 1) leader
    (con.common.genesis ++ dag.certificates)

variable {leader leader' : Certificate} {ls ls' : List Certificate}

lemma Supported.mem (h : Supported dag leader) :
    leader ∈ con.common.genesis ++ dag.certificates :=
  (MP3Consensus.mem_of_primaryLeader h.primary).1

/-- **The leaders linked to a later leader extend those linked to an earlier one**,
if both are supported. -/
theorem orderLeaders_whole_append (hdag : dag.Fits) (h : Supported dag leader)
    (h' : Supported dag leader') (hlt : leader.round < leader'.round)
    (hls : con.orderLeaders (whole dag) leader = some ls) :
    con.orderLeaders (whole dag) leader' =
      (con.walk (whole dag).dag (leader.round + 2) leader').map fun w => w.1 ++ ls := by
  have heven := h.even
  have heven' := h'.even
  have htwo := h.two_le
  have hsplit : leaderRounds 2 (leader'.round - 2) =
      leaderRounds (leader.round + 2) (leader'.round - 2) ++
        leader.round :: leaderRounds 2 (leader.round - 2) :=
    leaderRounds_eq_append (le_refl 2) htwo (by omega) (by omega)
  have hwalk : con.walk (whole dag).dag 2 leader' =
      (con.walk (whole dag).dag (leader.round + 2) leader').bind fun w =>
        (leader.round :: leaderRounds 2 (leader.round - 2)).foldlM
          (con.common.walkLeaders (whole dag).dag) w := by
    rw [walk, hsplit, List.foldlM_append]
    rfl
  change (con.walk (whole dag).dag 2 leader').map Prod.fst = _
  rw [hwalk]
  cases hfirst : con.walk (whole dag).dag (leader.round + 2) leader' with
  | none => rfl
  | some w =>
      obtain ⟨past, hpast, hmem, -, hlast⟩ := walk_eq h'.two_le hfirst
      -- the walk stands two rounds or more above the earlier leader
      have habove : w.2 ∈ (whole dag).dag ∧ leader.round + 2 ≤ w.2.round := by
        rw [hpast] at hlast
        rcases List.mem_cons.mp hlast with heq | hlast
        · rw [heq]
          exact ⟨h'.mem, by omega⟩
        · exact hmem _ hlast
      have hcert : w.2 ∈ dag.certificates := by
        refine (List.mem_append.mp habove.1).resolve_left fun hgenesis => ?_
        have hzero := Certificate.round_of_mem_genesis hgenesis
        omega
      have hlinked : con.common.linked w.2 leader (whole dag).dag = some true :=
        MP3Consensus.Dag.linked_of_supported hdag h.mem h.support hcert habove.2
      have hstep : con.common.walkLeaders (whole dag).dag w leader.round =
          some (w.1 ++ [leader], leader) := by
        have hprimary : con.common.primaryLeader leader.round (whole dag).dag = some leader :=
          h.primary
        simp only [MP3Consensus.walkLeaders, hprimary, hlinked]
      obtain ⟨w₀, hw₀, rfl⟩ := Option.map_eq_some_iff.mp hls
      have hrest : (leaderRounds 2 (leader.round - 2)).foldlM
          (con.common.walkLeaders (whole dag).dag) (w.1 ++ [leader], leader) =
            some (w.1 ++ w₀.1, w₀.2) := by
        rw [MP3Consensus.foldlM_walkLeaders_append w.1 ([leader], leader)]
        exact congrArg (Option.map _) hw₀
      rw [Option.bind_some, foldlM_cons_eq_some.mpr ⟨_, hstep, hrest⟩]
      rfl

end Consensus

/-! ### A replica follows the replica with the whole dag -/

namespace Follows

variable {con : Consensus} {dag : Dag con.common} {delivered : List Certificate} {s full : State}
  {c leader : Certificate}

/-- The leaders linked to a leader that has been delivered are those of the whole
dag. -/
lemma tusk_walk_eq (h : Follows dag delivered s full) (hd : Delivered dag delivered) (hs : s.Wf)
    (hleader : leader ∈ con.common.genesis ++ delivered) (hround : 2 ≤ leader.round) :
    con.walk s.dag (s.lastCommittedRound + 2) leader =
      con.walk full.dag (s.lastCommittedRound + 2) leader := by
  refine foldlM_congr (I := fun pre walk => walk.2 ∈ con.common.genesis ++ delivered ∧
    (walk.2.round = leader.round ∨ walk.2.round ∈ pre)) ⟨hleader, Or.inl rfl⟩ ?_
  rintro pre round post walk hsplit ⟨hmem, hlast⟩
  obtain ⟨hlow, hhigh, -⟩ := mem_leaderRounds.mp (mem_of_split hsplit)
  have hle : round ≤ walk.2.round := by
    rcases hlast with heq | hpre
    · omega
    · have hfall := pairwise_leaderRounds (s.lastCommittedRound + 2) (leader.round - 2)
      rw [hsplit, List.pairwise_append] at hfall
      exact (hfall.2.2 _ hpre _ (List.mem_cons_self ..)).le
  refine ⟨h.walkLeaders_eq hd hs hmem (by omega) hle, fun walk' hwalk => ?_⟩
  rcases MP3Consensus.walkLeaders_cases hwalk with rfl | ⟨prev, hprev, -, rfl⟩
  · exact ⟨hmem, hlast.imp_right (List.mem_append_left _)⟩
  · obtain ⟨hdag, rfl⟩ := MP3Consensus.mem_of_primaryLeader hprev
    exact ⟨h.delivered_of_mem prev hdag,
      Or.inr (List.mem_append_right _ (List.mem_singleton.mpr rfl))⟩

end Follows

namespace Consensus

variable {con : Consensus} {dag : Dag con.common} {delivered order : List Certificate}
  {r : TuskReplica} {c leader : Certificate} {ls : List Certificate} {p p' : State × List Sent}

/-- A part of the whole dag that has all of it above the last committed round. -/
structure FullAbove (dag : Dag con.common) (s : State) : Prop where
  wf : s.Wf
  subset : ∀ c ∈ s.dag, c ∈ (whole dag).dag
  atRound_eq : ∀ round, s.lastCommittedRound < round →
    atRound round s.dag = atRound round (whole dag).dag

lemma FullAbove.sendAll (h : FullAbove dag p.1) (hdag : dag.Fits) (flattened : State)
    (xs : List Certificate) : FullAbove dag (con.common.sendAll flattened p xs).1 := by
  refine MP3Consensus.sendAll_induction (I := fun _ p => FullAbove dag p.1) h ?_
  rintro _ x _ p' _ hp
  refine ⟨State.wf_commit hp.wf _ x, fun c hc => hp.subset c (State.mem_commit.mp hc).1,
    fun round hround => ?_⟩
  have hfits : ∀ y ∈ p'.1.dag, y.round = round → round + con.common.gcDepth < 2 ^ 64 := by
    rintro y hy rfl
    exact hdag.depth y (hp.subset y hy)
  rw [State.atRound_commit hp.wf hfits hround]
  exact hp.atRound_eq round (lt_of_le_of_lt (le_max_left _ _) hround)

lemma nodup_dag_sendAll (h : p.1.dag.Nodup) (flattened : State) (xs : List Certificate) :
    (con.common.sendAll flattened p xs).1.dag.Nodup :=
  MP3Consensus.sendAll_induction (I := fun _ p => p.1.dag.Nodup) h
    fun _ _ _ _ _ hp => hp.filter _

/-- What a replica has sent and where it stands, compared with a replica that holds
the whole dag and has committed the leaders `ls`, latest first. -/
structure Ordered (dag : Dag con.common) (delivered : List Certificate) (r : TuskReplica)
    (ls : List Certificate) (p : State × List Sent) : Prop where
  wf : r.state.Wf
  nodup : r.state.dag.Nodup
  replay : ls.reverse.foldlM con.common.flatten (whole dag, []) = some p
  output : r.output = p.2.map Sent.certificate
  follows : r.halted = false → Follows dag delivered r.state p.1
  above : FullAbove dag p.1
  last : ls = [] ∧ r.state.lastCommittedRound = 0 ∨ ∃ leader, Supported dag leader ∧
    con.orderLeaders (whole dag) leader = some ls ∧ r.state.lastCommittedRound = leader.round

namespace Ordered

lemma start (hdag : dag.Fits) : Ordered dag [] con.start [] (whole dag, []) where
  wf := (Chained.start con.common).wf
  nodup := by
    have hkeys : con.common.committee.keys.Nodup := Committee.nodup_keys
    exact hkeys.map fun _ _ h => congrArg Certificate.origin h
  replay := rfl
  output := rfl
  follows := fun _ =>
    { lastCommitted := rfl
      lastCommittedRound := rfl
      full_of_mem := fun c hc => List.mem_append_left _ hc
      mem_of_delivered := fun c hc _ => by rwa [List.append_nil] at hc
      delivered_of_mem := fun c hc => List.mem_append_left _ hc
      dag_of_full := fun c hc => hc
      full_of_live := fun c hc _ => hc
      fits := hdag.depth }
  above := ⟨⟨(Chained.start con.common).wf.bounded, (Chained.start con.common).wf.attained⟩,
    fun _ hc => hc, fun _ _ => rfl⟩
  last := Or.inl ⟨rfl, rfl⟩

lemma insert (h : Ordered dag delivered r ls p) (hrunning : r.halted = false)
    (hc : c ∈ dag.certificates) (hlive : r.state.live con.gcDepth c = true) :
    Ordered dag (delivered ++ [c]) (r.insert c) ls p :=
  { h with
    wf := ⟨h.wf.bounded, h.wf.attained⟩
    nodup := by
      refine List.nodup_cons.mpr ⟨fun hmem => ?_, h.nodup.filter _⟩
      exact of_decide_eq_true (List.mem_filter.mp hmem).2 ⟨rfl, rfl⟩
    output := h.output
    follows := fun _ => (h.follows hrunning).insert hc hlive }

variable {round : ℕ}

/-- A leader that a replica elects is supported in the whole dag. -/
lemma supported (h : Ordered dag delivered r ls p) (hdag : dag.Fits)
    (hrunning : r.halted = false) (helected : Elected con r.state round leader) :
    Supported dag leader := by
  have hf := h.follows hrunning
  have hsub : ∀ c ∈ r.state.dag, c ∈ (whole dag).dag :=
    fun c hc => hf.dag_of_full c (hf.full_of_mem c hc)
  refine ⟨helected.even, helected.two_le, ?_,
    le_trans helected.support (hdag.support_mono h.nodup hsub)⟩
  have hprimary : con.common.primaryLeader leader.round r.state.dag = some leader :=
    helected.primary
  have hfull : con.common.primaryLeader leader.round p.1.dag = some leader := by
    rcases hf.primaryLeader_cases leader.round with hsame | ⟨hnone, -⟩
    · rw [← hsame, hprimary]
    · rw [hprimary] at hnone
      cases hnone
  have hround : p.1.lastCommittedRound < leader.round := hf.lastCommittedRound ▸ helected.above
  exact (MP3Consensus.primaryLeader_congr (h.above.atRound_eq _ hround)).symm.trans hfull

/-- The leaders that a replica commits with an elected one are the next ones in
the whole dag. -/
lemma orderLeaders_whole (h : Ordered dag delivered r ls p) (hdag : dag.Fits)
    (hd : Delivered dag delivered) (hrunning : r.halted = false)
    (helected : Elected con r.state round leader) {next : List Certificate}
    (hnext : con.orderLeaders r.state leader = some next) :
    con.orderLeaders (whole dag) leader = some (next ++ ls) := by
  have hf := h.follows hrunning
  have hleader : leader ∈ con.common.genesis ++ delivered :=
    hf.delivered_of_mem leader (MP3Consensus.mem_of_primaryLeader helected.primary).1
  obtain ⟨w, hw, rfl⟩ := Option.map_eq_some_iff.mp hnext
  -- the walk of the replica is a walk in the whole dag
  have hwalk : con.walk (whole dag).dag (r.state.lastCommittedRound + 2) leader = some w := by
    rw [hf.tusk_walk_eq hd h.wf hleader helected.two_le, walk] at hw
    rw [walk, ← hw]
    refine (MP3Consensus.foldlM_walkLeaders_congr (fun r hr => (mem_leaderRounds.mp hr).1)
      fun round hround => h.above.atRound_eq round ?_).symm
    rw [← hf.lastCommittedRound]
    omega
  rcases h.last with ⟨rfl, hzero⟩ | ⟨last, hlast, hls, hround⟩
  · rw [hzero] at hwalk
    rw [List.append_nil]
    exact congrArg (Option.map Prod.fst) hwalk
  · rw [hround] at hwalk
    rw [orderLeaders_whole_append hdag hlast (h.supported hdag hrunning helected)
      (hround ▸ helected.above) hls, hwalk, Option.map_some]

/-- Committing an elected leader. -/
lemma commit {s : State} {sequence : List Sent} (h : Ordered dag delivered r ls p)
    (hdag : dag.Fits) (hd : Delivered dag delivered) (hrunning : r.halted = false)
    (helected : Elected con r.state round leader)
    (hcommit : con.commitLeader r.state leader = some (s, sequence)) :
    ∃ ls' p', Ordered dag delivered (r.commit s sequence) ls' p' := by
  have hf := h.follows hrunning
  obtain ⟨past, hnext, hpast, habove, hrise, hloop⟩ :=
    (commitLeader_eq_some helected.two_le helected.above).mp hcommit
  have hwhole := h.orderLeaders_whole hdag hd hrunning helected hnext
  have hdelivered : ∀ q ∈ (leader :: past).reverse, q ∈ con.common.genesis ++ delivered := by
    intro q hq
    rcases List.mem_cons.mp (List.mem_reverse.mp hq) with rfl | hq
    · exact hf.delivered_of_mem q (MP3Consensus.mem_of_primaryLeader helected.primary).1
    · exact hf.delivered_of_mem q (hpast q hq)
  -- The dag of the replica and the whole dag flatten the same leaders in lockstep.
  have hinit : Matches dag delivered (r.state, []) (p.1, []) := ⟨hf, h.wf, rfl⟩
  obtain ⟨q, hq, hmatches⟩ := foldlM_simulation hinit
    (fun l hl _ _ _ hm hp' => hm.flatten hd (hdelivered l hl) hp') hloop
  have hfull := foldlM_flatten_induction (p := (p.1, [])) (I := fun p => FullAbove dag p.1)
    h.above.wf hrise (fun q hq => hf.lastCommittedRound ▸ habove q hq) h.above
    (fun p q xs _ hp _ _ _ => hp.sendAll hdag p.1 xs) hq
  have hnodup := foldlM_flatten_induction (I := fun p => p.1.dag.Nodup) h.wf hrise habove h.nodup
    (fun p q xs _ hp _ _ _ => nodup_dag_sendAll hp p.1 xs) hloop
  refine ⟨(leader :: past) ++ ls, (q.1, p.2 ++ q.2), hmatches.wf, hnodup.2, ?_, ?_,
    fun _ => hmatches.follows, hfull.2, Or.inr
      ⟨leader, h.supported hdag hrunning helected, hwhole, ?_⟩⟩
  · have hrest : (leader :: past).reverse.foldlM con.common.flatten p =
        some (q.1, p.2 ++ q.2) := by
      have happend := con.common.foldlM_flatten_append p.2 (p.1, []) (leader :: past).reverse
      rwa [hq, Option.map_some, List.append_nil] at happend
    rw [List.reverse_append, List.foldlM_append, h.replay]
    exact hrest
  · rw [TuskReplica.output, TuskReplica.commit, List.map_append, List.map_append, ← h.output,
      ← hmatches.sent]
    rfl
  · exact lastCommittedRound_commitLeader h.wf
      (hdag.depth leader (h.supported hdag hrunning helected).mem) hrise habove hloop

end Ordered

/-- Every run is ordered, if each certificate is live when it is delivered. -/
theorem ordered_run (hdag : dag.Fits) (hd : Delivered dag order)
    (hlive : ForallSplit (fun pre c => (con.run pre).state.live con.gcDepth c = true) order) :
    ∃ ls p, Ordered dag order (con.run order) ls p := by
  refine (run_induction (I := fun pre r => Delivered dag pre → ∃ ls p, Ordered dag pre r ls p)
    (C := fun _ r c => r.state.live con.gcDepth c = true) ?_ ?_ ?_ ?_ ?_ hlive) hd
  · exact fun _ => ⟨_, _, .start hdag⟩
  · intro pre c r hhalted hI hd
    obtain ⟨ls, p, h⟩ := hI hd.of_append
    refine ⟨ls, p, { h with follows := fun hrunning => ?_ }⟩
    rw [hhalted] at hrunning
    cases hrunning
  · intro pre c r hrunning hI hc hd
    obtain ⟨ls, p, h⟩ := hI hd.of_append
    exact ⟨ls, p, h.insert hrunning (hd.subset c (by simp)) hc⟩
  · intro pre r round leader s sequence hrunning hI helected hcommit hd
    obtain ⟨ls, p, h⟩ := hI hd
    exact h.commit hdag hd hrunning helected hcommit
  · intro pre r hI hd
    obtain ⟨ls, p, h⟩ := hI hd
    exact ⟨ls, p, { h with follows := fun hrunning => by cases hrunning }⟩

/-- What is delivered of a dag is an admissible history. -/
lemma admissible_of_delivered (hd : Delivered dag order) : con.common.Admissible order := by
  intro pre c post hsplit
  have hc := hd.subset c (mem_of_split hsplit)
  refine ⟨fun hzero => ?_, fun _ => ⟨?_, hd.afterParents pre c post hsplit⟩⟩
  · have hpos := dag.rounds c hc
    omega
  · obtain ⟨p, -, hparent⟩ := dag.exists_parent hc
    exact List.ne_nil_of_mem hparent

/-- What is delivered of a dag that makes no sum overflow makes none overflow. -/
lemma fits_of_delivered (hdag : dag.Fits) (hd : Delivered dag order) : con.common.Fits order where
  depth c hc := hdag.depth c (hd.mem_dag hc)
  slots _ c hc := by
    have hdepth := hdag.depth c (List.mem_append_right _ (hd.subset c hc))
    have hslots : con.common.slots = 0 := Nat.zero_min _
    omega
  stakes _ := by
    have hstakes : 2 * con.common.committee.totalStake < 2 ^ 32 := hdag.stakes
    omega

/-- A replica has sent nothing, or what a replica with the whole dag sends for the
leader that was committed last. -/
lemma output_whole (hdag : dag.Fits) (hd : Delivered dag order)
    (hlive : ForallSplit (fun pre c => (con.run pre).state.live con.gcDepth c = true) order) :
    (con.run order).output = [] ∧ (con.run order).state.lastCommittedRound = 0 ∨
      ∃ leader p, Supported dag leader ∧ con.commitLeader (whole dag) leader = some p ∧
        (con.run order).output = p.2.map Sent.certificate ∧
        (con.run order).state.lastCommittedRound = leader.round := by
  obtain ⟨ls, p, h⟩ := ordered_run hdag hd hlive
  rcases h.last with ⟨rfl, hzero⟩ | ⟨leader, hsupported, hls, hround⟩
  · have hp := h.replay
    cases hp
    exact Or.inl ⟨h.output, hzero⟩
  · refine Or.inr ⟨leader, p, hsupported, ?_, h.output, hround⟩
    rw [commitLeader, hls]
    exact h.replay

/-- **Refinement of the whole dag.** Whatever the order of delivery, if no sum overflows
and each certificate is live when it is delivered, a replica runs on and has sent
nothing, or what a replica with the whole dag sends when it commits at once the leader
that was committed last. A certificate may be delivered more than once. -/
theorem refines_whole (con : Consensus) (dag : Dag con.common) (hdag : dag.Fits)
    (order : List Certificate) (hd : Delivered dag order)
    (hlive : ForallSplit (fun pre c => (con.run pre).state.live con.gcDepth c = true) order) :
    (con.run order).halted = false ∧
      ((con.run order).output = [] ∧ (con.run order).state.lastCommittedRound = 0 ∨
        ∃ leader p, Supported dag leader ∧ con.commitLeader (whole dag) leader = some p ∧
          (con.run order).output = p.2.map Sent.certificate ∧
          (con.run order).state.lastCommittedRound = leader.round) :=
  ⟨(grounded_tusk_run (admissible_of_delivered hd) (fits_of_delivered hdag hd) fun c hc =>
      dag.rounds c (hd.subset c hc)).2, output_whole hdag hd hlive⟩

/-- What a replica with the whole dag sends for an earlier leader is a prefix of
what it sends for a later one. -/
lemma prefix_commitLeader_whole {leader leader' : Certificate} (hdag : dag.Fits)
    (h : Supported dag leader) (h' : Supported dag leader') (hle : leader.round ≤ leader'.round)
    (hp : con.commitLeader (whole dag) leader = some p)
    (hp' : con.commitLeader (whole dag) leader' = some p') :
    p.2.map Sent.certificate <+: p'.2.map Sent.certificate := by
  rcases Nat.lt_or_eq_of_le hle with hlt | heq
  · rw [commitLeader] at hp
    split at hp
    · cases hp
    · rename_i ls hls
      rw [commitLeader, orderLeaders_whole_append hdag h h' hlt hls] at hp'
      split at hp'
      · cases hp'
      · rename_i ls' hls'
        obtain ⟨w, -, rfl⟩ := Option.map_eq_some_iff.mp hls'
        rw [List.reverse_append, List.foldlM_append] at hp'
        obtain ⟨q, hq, hrest⟩ := Option.bind_eq_some_iff.mp hp'
        cases hp.symm.trans hq
        have happend := con.common.foldlM_flatten_append p.2 (p.1, []) w.1.reverse
        rw [List.append_nil] at happend
        rw [happend] at hrest
        obtain ⟨more, -, rfl⟩ := Option.map_eq_some_iff.mp hrest
        rw [List.map_append]
        exact List.prefix_append _ _
  · -- two leaders of one round are the same certificate
    have hsame : leader = leader' := by
      have hprimary' := h'.primary
      rw [← heq, h.primary] at hprimary'
      exact Option.some.inj hprimary'
    subst hsame
    cases hp.symm.trans hp'
    exact List.prefix_refl _

/-- The outputs of two replicas are prefixes of one another. -/
lemma prefix_output_or {order' : List Certificate} (hdag : dag.Fits)
    (hd : Delivered dag order) (hd' : Delivered dag order')
    (hlive : ForallSplit (fun pre c => (con.run pre).state.live con.gcDepth c = true) order)
    (hlive' : ForallSplit (fun pre c => (con.run pre).state.live con.gcDepth c = true) order') :
    (con.run order).output <+: (con.run order').output ∨
      (con.run order').output <+: (con.run order).output := by
  rcases output_whole hdag hd hlive with ⟨hout, -⟩ | ⟨leader, p, h, hp, hout, -⟩
  · rw [hout]
    exact Or.inl List.nil_prefix
  rcases output_whole hdag hd' hlive' with ⟨hout', -⟩ | ⟨leader', p', h', hp', hout', -⟩
  · rw [hout']
    exact Or.inr List.nil_prefix
  rw [hout, hout']
  exact (Nat.le_total leader.round leader'.round).imp
    (fun hle => prefix_commitLeader_whole hdag h h' hle hp hp')
    fun hle => prefix_commitLeader_whole hdag h' h hle hp' hp

/-- **Agreement.** Whatever the orders in which two replicas are given the
certificates of a dag, each after its parents, if no sum overflows and each is live when
it is delivered, the outputs are prefixes of one another. -/
theorem tusk_agreement (con : Consensus) (dag : Dag con.common) (hdag : dag.Fits)
    (order order' : List Certificate) (hd : Delivered dag order) (hd' : Delivered dag order')
    (hlive : ForallSplit (fun pre c => (con.run pre).state.live con.gcDepth c = true) order)
    (hlive' : ForallSplit (fun pre c => (con.run pre).state.live con.gcDepth c = true) order') :
    (con.run order).output <+: (con.run order').output ∨
      (con.run order').output <+: (con.run order).output :=
  prefix_output_or hdag hd hd' hlive hlive'

/-! ### Orders of one dag -/

/-- Seven rounds of two authorities. -/
def sevenRounds : Dag twoAuthorities.common where
  certificates := bothChains 7
  unequivocal := by decide +kernel
  rounds := by decide +kernel
  parents := by decide +kernel
  quorum := by decide +kernel

/-- The second authority comes first in every round. -/
def bothChainsSwapped (rounds : ℕ) : List Certificate :=
  (List.range rounds).flatMap fun i =>
    [MP3Consensus.certifyBoth (i + 1) 1, MP3Consensus.certifyBoth (i + 1) 0]

lemma delivered_sevenRounds : Delivered sevenRounds (bothChains 7) :=
  ⟨fun _ hc => hc, by decide +kernel⟩

lemma delivered_sixSwapped : Delivered sevenRounds (bothChainsSwapped 6) :=
  ⟨by decide +kernel, by decide +kernel⟩

theorem refines_whole_sevenRounds :
    (twoAuthorities.run (bothChains 7)).halted = false ∧
      ((twoAuthorities.run (bothChains 7)).output = [] ∧
          (twoAuthorities.run (bothChains 7)).state.lastCommittedRound = 0 ∨
        ∃ leader p, Supported sevenRounds leader ∧
          twoAuthorities.commitLeader (whole sevenRounds) leader = some p ∧
          (twoAuthorities.run (bothChains 7)).output = p.2.map Sent.certificate ∧
          (twoAuthorities.run (bothChains 7)).state.lastCommittedRound = leader.round) :=
  refines_whole twoAuthorities sevenRounds (by decide +kernel) _ delivered_sevenRounds
    (by decide +kernel)

theorem tusk_agreement_sevenRounds :
    ((twoAuthorities.run (bothChainsSwapped 6)).output.length = 3 ∧
        (twoAuthorities.run (bothChains 7)).output.length = 7) ∧
      ((twoAuthorities.run (bothChainsSwapped 6)).output <+:
          (twoAuthorities.run (bothChains 7)).output ∨
        (twoAuthorities.run (bothChains 7)).output <+:
          (twoAuthorities.run (bothChainsSwapped 6)).output) :=
  ⟨by decide +kernel, tusk_agreement twoAuthorities sevenRounds (by decide +kernel) _ _
    delivered_sixSwapped delivered_sevenRounds (by decide +kernel) (by decide +kernel)⟩

/-! ### A certificate that comes late -/

/-- Four authorities of one vote each. -/
def fourAuthorities : Consensus where
  committee := ⟨[(0, 1), (1, 1), (2, 1), (3, 1)], by decide⟩
  gcDepth := 50
  overflowChecks := true
  hash := fun id round origin => Nat.pair id (Nat.pair round origin)
  collisionFree := MP3Consensus.pair_collisionFree

/-- The certificate of an authority in a round, given the origins of its parents
in order. -/
def vertex (round origin : ℕ) (parents : List ℕ) : Certificate :=
  if h : (parents.map fun p => Nat.pair 0 (Nat.pair (round - 1) p)).Pairwise (· < ·) then
    MP3Consensus.certify round origin parents h
  else MP3Consensus.certifyNone round origin

/-- The first certificate of authority 2, which leads round two. -/
def lateVertex : Certificate := vertex 1 2 [0, 1, 2, 3]

/-- What is needed to commit the leader of round two: nothing here refers to the
first certificate of authority 2. -/
def earlyVertices : List Certificate :=
  [vertex 1 0 [0, 1, 2], vertex 1 1 [0, 1, 2], vertex 1 3 [0, 1, 2],
    vertex 2 0 [0, 1, 3], vertex 2 1 [0, 1, 3], vertex 2 2 [0, 1, 3],
    vertex 3 0 [0, 1, 2], vertex 3 1 [0, 1, 2], vertex 3 2 [0, 1, 2],
    vertex 4 1 [0, 1, 2], vertex 4 2 [0, 1, 2], vertex 4 3 [0, 1, 2], vertex 5 1 [1, 2, 3]]

/-- What is needed to commit the leader of round four, which reaches the first
certificate of authority 2 through authority 3. -/
def upperVertices : List Certificate :=
  [vertex 2 3 [0, 1, 2], vertex 3 3 [0, 1, 3], vertex 4 0 [0, 1, 3], vertex 5 0 [0, 1, 2],
    vertex 5 2 [0, 1, 2], vertex 6 0 [0, 1, 2], vertex 6 1 [0, 1, 2], vertex 6 2 [0, 1, 2],
    vertex 7 0 [0, 1, 2]]

/-- Seven rounds of four authorities. -/
def lateRounds : Dag fourAuthorities.common where
  certificates := lateVertex :: earlyVertices ++ upperVertices
  unequivocal := by decide +kernel
  rounds := by decide +kernel
  parents := by decide +kernel
  quorum := by decide +kernel

lemma delivered_inTime :
    Delivered lateRounds (lateVertex :: earlyVertices ++ upperVertices) :=
  ⟨fun _ hc => hc, by decide +kernel⟩

/-- The first certificate of authority 2 comes after its second one has been
committed. -/
lemma delivered_tooLate :
    Delivered lateRounds (earlyVertices ++ lateVertex :: upperVertices) :=
  ⟨by decide +kernel, by decide +kernel⟩

/-- That certificates are live when they are delivered is needed: one that comes
in time is dropped when a later one of its origin is committed, and one that comes
too late is sent with the next leader. -/
theorem disagreement_of_late :
    ∃ order order', Delivered lateRounds order ∧ Delivered lateRounds order' ∧
      ¬((fourAuthorities.run order).output <+: (fourAuthorities.run order').output ∨
        (fourAuthorities.run order').output <+: (fourAuthorities.run order).output) :=
  ⟨_, _, delivered_inTime, delivered_tooLate, by decide +kernel⟩

end Consensus

end StablecoinSystem
