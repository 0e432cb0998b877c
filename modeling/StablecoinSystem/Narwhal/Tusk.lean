import StablecoinSystem.Narwhal.Integrity
import StablecoinSystem.Narwhal.Progress

/-!
`Consensus` (`consensus/src/lib.rs`), the Tusk protocol: leaders are elected in even
rounds, a leader is committed three rounds later if its children support it, and
with it the leaders that it is linked to.

`mp3bft.rs` repeats `State`, `leader` (there `primary_leader`), `linked` and
`order_dag` of this file word for word, so the model has them once. `none` is a
panic of the task, as in `MP3Consensus`: the `expect` after the election, that of
`linked`, and in a build with overflow checks any sum or difference that does not fit.

* `receive_cases`: what receiving a certificate does;
* `foldlM_flatten_induction`: the rule for committing leaders of rising rounds;
* `run_induction`: the rule for invariants of a run;
* `nodup_tusk_output`: no certificate is sent twice, unless it is delivered again
  after it was sent and a later one of its origin was committed;
* `not_halted_run`: no admissible history makes the task panic, unless a sum
  overflows.
-/

namespace StablecoinSystem

/-- `Consensus`: the parameters of a replica, and whether it was built with overflow
checks. `hash` is the function under `Certificate::digest`, as in `MP3Consensus`. -/
structure Consensus where
  committee : Committee
  gcDepth : ℕ
  overflowChecks : Bool
  hash : ℕ → ℕ → ℕ → ℕ
  collisionFree : ∀ id round origin id' round' origin',
    hash id round origin = hash id' round' origin' → id = id' ∧ round = round' ∧ origin = origin'

/-- The state of `Consensus::run` and what it has sent on `tx_output`. The prepared
chain of the state stays empty. -/
structure TuskReplica where
  state : State
  sent : List Sent
  halted : Bool

namespace TuskReplica

/-- The certificates sent. -/
def output (r : TuskReplica) : List Certificate := r.sent.map Sent.certificate

/-- `state.dag` with a received certificate. -/
def insert (r : TuskReplica) (c : Certificate) : TuskReplica :=
  { r with state := { r.state with dag := insertCertificate c r.state.dag } }

/-- Send the sequence of a committed leader. -/
def commit (r : TuskReplica) (s : State) (sequence : List Sent) : TuskReplica :=
  { r with state := s, sent := r.sent ++ sequence }

/-- The task has panicked. -/
def halt (r : TuskReplica) : TuskReplica := { r with halted := true }

end TuskReplica

/-- The rounds `(low..=high).rev().step_by(2)`. -/
def leaderRounds (low high : ℕ) : List ℕ :=
  (List.range' low (high + 1 - low)).reverse.filter fun r => (high - r) % 2 = 0

namespace Consensus

variable (con : Consensus)

/-- What `lib.rs` shares with `mp3bft.rs`, where nothing depends on the number of
slots. -/
def common : MP3Consensus where
  committee := con.committee
  gcDepth := con.gcDepth
  kSlots := 0
  overflowChecks := con.overflowChecks
  hash := con.hash
  collisionFree := con.collisionFree

/-- `leader`. -/
def leader (round : ℕ) (dag : List Certificate) : Option Certificate :=
  con.common.primaryLeader round dag

/-- The loop of `order_leaders`: the leaders to commit, and the last of them. -/
def walk (dag : List Certificate) (low : ℕ) (leader : Certificate) :
    Option (List Certificate × Certificate) :=
  (leaderRounds low (leader.round - 2)).foldlM (con.common.walkLeaders dag) ([leader], leader)

/-- `order_leaders`. -/
def orderLeaders (s : State) (leader : Certificate) : Option (List Certificate) :=
  (con.walk s.dag (s.lastCommittedRound + 2) leader).map Prod.fst

/-- Whether a build with overflow checks panics while it compares the stake behind a
leader with `validity_threshold`. -/
def supportPanics (round : ℕ) (leader : Certificate) (dag : List Certificate) : Bool :=
  con.overflowChecks && (decide (2 ^ 32 ≤ con.common.supportStake round leader dag) ||
    decide (2 ^ 32 ≤ con.committee.totalStake + 2))

/-- The leader that a certificate of `round` lets commit, if there is one; the
outer `none` is the `expect` on the round of its children, or an overflow. -/
def supportedLeader (s : State) (round : ℕ) : Option (Option Certificate) :=
  let r := round - 1
  if r % 2 ≠ 0 ∨ r < 4 then some none
  else if r - 2 ≤ s.lastCommittedRound then some none
  else
    match con.leader (r - 2) s.dag with
    | none => some none
    | some leader =>
        match atRound (r - 1) s.dag with
        | [] => none
        | _ =>
            if con.supportPanics (r - 1) leader s.dag then none
            else if con.common.support (r - 1) leader s.dag < con.committee.validityThreshold then
              some none
            else some (some leader)

/-- The sequence of certificates that a leader puts out. -/
def commitLeader (s : State) (leader : Certificate) : Option (State × List Sent) :=
  match con.orderLeaders s leader with
  | none => none
  | some leaders => leaders.reverse.foldlM con.common.flatten (s, [])

/-- The body of the loop of `run`. At round zero `round - 1` does not fit: in a release
build it is `u64::MAX`, which is odd. -/
def receive (r : TuskReplica) (c : Certificate) : TuskReplica :=
  if r.halted then r
  else if c.round = 0 then if con.overflowChecks then (r.insert c).halt else r.insert c
  else
    match con.supportedLeader (r.insert c).state c.round with
    | none => (r.insert c).halt
    | some none => r.insert c
    | some (some leader) =>
        match con.commitLeader (r.insert c).state leader with
        | none => (r.insert c).halt
        | some (s, sequence) => (r.insert c).commit s sequence

/-- The state in which `run` starts. -/
def start : TuskReplica := ⟨State.new con.common.genesis, [], false⟩

/-- The state after a sequence of certificates has been received. -/
def run (certificates : List Certificate) : TuskReplica :=
  certificates.foldl con.receive con.start

end Consensus

/-! ### The rounds of leaders -/

lemma mem_leaderRounds {low high r : ℕ} :
    r ∈ leaderRounds low high ↔ low ≤ r ∧ r ≤ high ∧ (high - r) % 2 = 0 := by
  simp only [leaderRounds, List.mem_filter, List.mem_reverse, List.mem_range'_1, decide_eq_true_eq]
  omega

lemma pairwise_leaderRounds (low high : ℕ) : (leaderRounds low high).Pairwise (· > ·) := by
  refine List.Pairwise.filter _ ?_
  rw [List.pairwise_reverse]
  exact List.pairwise_lt_range' 1

namespace Consensus

variable {con : Consensus} {s : State} {r : TuskReplica} {c q leader : Certificate}
  {p p' : State × List Sent} {xs : List Certificate}

/-! ### The leader to commit -/

/-- What is known of a leader that is to be committed. -/
structure Elected (con : Consensus) (s : State) (round : ℕ) (leader : Certificate) : Prop where
  round_eq : leader.round + 3 = round
  even : leader.round % 2 = 0
  two_le : 2 ≤ leader.round
  above : s.lastCommittedRound < leader.round
  primary : con.leader leader.round s.dag = some leader
  support : con.committee.validityThreshold ≤
    con.common.support (leader.round + 1) leader s.dag

lemma elected_of_supportedLeader {round : ℕ}
    (h : con.supportedLeader s round = some (some leader)) : Elected con s round leader := by
  simp only [supportedLeader] at h
  split at h
  · cases h
  · rename_i hround
    split at h
    · cases h
    · rename_i habove
      split at h
      · cases h
      · rename_i l hl
        split at h
        · cases h
        · split at h
          · cases h
          · split at h
            · cases h
            · rename_i hsupport
              cases h
              obtain ⟨-, hlround⟩ := MP3Consensus.mem_of_primaryLeader hl
              push Not at hround habove hsupport
              have hchildren : leader.round + 1 = round - 1 - 1 := by omega
              exact ⟨by omega, by omega, by omega, by omega, by rw [hlround]; exact hl, by
                rw [hchildren]; exact hsupport⟩

/-- The election fails only if the round of the children is not there, or a sum of
stakes overflows. -/
lemma supportedLeader_eq_none {round : ℕ} (h : con.supportedLeader s round = none) :
    s.lastCommittedRound < round - 2 ∧ 5 ≤ round ∧ (atRound (round - 2) s.dag = [] ∨
      ∃ leader, con.supportPanics (round - 2) leader s.dag = true) := by
  simp only [supportedLeader] at h
  split at h
  · cases h
  · rename_i hround
    split at h
    · cases h
    · rename_i habove
      split at h
      · cases h
      · rename_i leader _
        have heq : round - 1 - 1 = round - 2 := by omega
        push Not at hround habove
        split at h
        · rename_i hnil
          exact ⟨by omega, by omega, Or.inl (heq ▸ hnil)⟩
        · split at h
          · rename_i hpanics
            exact ⟨by omega, by omega, Or.inr ⟨leader, heq ▸ hpanics⟩⟩
          · split at h <;> cases h

/-- A certificate is ignored by a task that has halted, or inserted, or inserted
and then the task halts or commits a leader. -/
lemma receive_cases (con : Consensus) (r : TuskReplica) (c : Certificate) :
    (r.halted = true ∧ con.receive r c = r) ∨
      (r.halted = false ∧ con.receive r c = r.insert c) ∨
      (r.halted = false ∧ con.receive r c = (r.insert c).halt ∧
        (c.round = 0 ∨ con.supportedLeader (r.insert c).state c.round = none ∨
          ∃ leader, Elected con (r.insert c).state c.round leader ∧
            con.commitLeader (r.insert c).state leader = none)) ∨
      ∃ leader s sequence, r.halted = false ∧ Elected con (r.insert c).state c.round leader ∧
        con.commitLeader (r.insert c).state leader = some (s, sequence) ∧
        con.receive r c = (r.insert c).commit s sequence := by
  by_cases hhalted : r.halted = true
  · exact Or.inl ⟨hhalted, if_pos hhalted⟩
  · have hrunning : r.halted = false := Bool.eq_false_iff.mpr hhalted
    right
    rw [receive, if_neg hhalted]
    split
    · rename_i hzero
      split
      · exact Or.inr (Or.inl ⟨hrunning, rfl, Or.inl hzero⟩)
      · exact Or.inl ⟨hrunning, rfl⟩
    · split
      · rename_i hnone
        exact Or.inr (Or.inl ⟨hrunning, rfl, Or.inr (Or.inl hnone)⟩)
      · exact Or.inl ⟨hrunning, rfl⟩
      · rename_i leader hleader
        have helected := elected_of_supportedLeader hleader
        split
        · rename_i hnone
          exact Or.inr (Or.inl ⟨hrunning, rfl, Or.inr (Or.inr ⟨leader, helected, hnone⟩)⟩)
        · rename_i s sequence hcommit
          exact Or.inr (Or.inr ⟨leader, s, sequence, hrunning, helected, hcommit, rfl⟩)

/-- The rule for invariants of a run. `C` is what is assumed of each certificate
when it is received. -/
theorem run_induction {I : List Certificate → TuskReplica → Prop}
    {C : List Certificate → TuskReplica → Certificate → Prop} {order : List Certificate}
    (hstart : I [] con.start)
    (hignore : ∀ pre c r, r.halted = true → I pre r → I (pre ++ [c]) r)
    (hinsert : ∀ pre c r, r.halted = false → I pre r → C pre r c → I (pre ++ [c]) (r.insert c))
    (hcommit : ∀ pre r round leader s sequence, r.halted = false → I pre r →
      Elected con r.state round leader → con.commitLeader r.state leader = some (s, sequence) →
      I pre (r.commit s sequence))
    (hhalt : ∀ pre r, I pre r → I pre r.halt)
    (hC : ForallSplit (fun pre c => C pre (con.run pre) c) order) : I order (con.run order) := by
  refine foldl_induction (f := con.receive) (b := con.start) hstart ?_
  intro pre c post hsplit hI
  have hc := hC pre c post hsplit
  rcases receive_cases con (con.run pre) c with ⟨hhalted, heq⟩ | ⟨hrunning, heq⟩ |
    ⟨hrunning, heq, -⟩ | ⟨leader, s, sequence, hrunning, helected, hseq, heq⟩ <;>
    rw [← run, heq]
  · exact hignore pre c _ hhalted hI
  · exact hinsert pre c _ hrunning hI hc
  · exact hhalt _ _ (hinsert pre c _ hrunning hI hc)
  · exact hcommit _ _ c.round leader s sequence hrunning (hinsert pre c _ hrunning hI hc) helected
      hseq

/-! ### Committing leaders -/

/-- A walk lists the leader and then leaders in the dag, of falling rounds. -/
lemma walk_eq {dag : List Certificate} {low : ℕ} {w : List Certificate × Certificate}
    (hround : 2 ≤ leader.round) (h : con.walk dag low leader = some w) :
    ∃ past, w.1 = leader :: past ∧ (∀ q ∈ past, q ∈ dag ∧ low ≤ q.round) ∧
      (w.1.map Certificate.round).Pairwise (· > ·) ∧ w.2 ∈ w.1 := by
  have hinv := foldlM_induction (I := fun pre w => ∃ past, w.1 = leader :: past ∧
      (∀ q ∈ past, q ∈ dag ∧ low ≤ q.round ∧ q.round ∈ pre) ∧
        (w.1.map Certificate.round).Pairwise (· > ·) ∧ w.2 ∈ w.1)
    ⟨[], rfl, fun _ hq => absurd hq List.not_mem_nil, List.pairwise_singleton _ _,
      List.mem_singleton.mpr rfl⟩ ?_ h
  · obtain ⟨past, hpast, hmem, hrest⟩ := hinv
    exact ⟨past, hpast, fun q hq => ⟨(hmem q hq).1, (hmem q hq).2.1⟩, hrest⟩
  rintro pre round post w w' hsplit ⟨past, hpast, hmem, hfall, hlast⟩ hstep
  have hold : ∀ q ∈ past, q ∈ dag ∧ low ≤ q.round ∧ q.round ∈ pre ++ [round] := fun q hq =>
    ⟨(hmem q hq).1, (hmem q hq).2.1, List.mem_append_left _ (hmem q hq).2.2⟩
  rcases MP3Consensus.walkLeaders_cases hstep with rfl | ⟨prev, hprev, -, rfl⟩
  · exact ⟨past, hpast, hold, hfall, hlast⟩
  obtain ⟨hdag, rfl⟩ := MP3Consensus.mem_of_primaryLeader hprev
  obtain ⟨hlow, hhigh, -⟩ := mem_leaderRounds.mp (mem_of_split hsplit)
  refine ⟨past ++ [prev], by rw [hpast, List.cons_append], ?_, ?_, ?_⟩
  · exact List.forall_mem_append.mpr ⟨hold, List.forall_mem_singleton.mpr ⟨hdag, hlow, by simp⟩⟩
  · -- the new leader is below the first one and below those of the rounds before
    rw [List.map_append, List.pairwise_append]
    refine ⟨hfall, List.pairwise_singleton _ _, fun r hr r' hr' => ?_⟩
    rw [List.map_singleton, List.mem_singleton] at hr'
    subst hr'
    rw [hpast, List.map_cons, List.mem_cons] at hr
    rcases hr with rfl | hr
    · omega
    · obtain ⟨q, hq, rfl⟩ := List.mem_map.mp hr
      have hrounds := pairwise_leaderRounds low (leader.round - 2)
      rw [hsplit, List.pairwise_append] at hrounds
      exact hrounds.2.2 _ (hmem q hq).2.2 _ (List.mem_cons_self ..)
  · exact List.mem_append_right _ (List.mem_singleton.mpr rfl)

/-- `order_leaders` returns the leader and leaders in the dag, of falling rounds
above the last committed one. -/
lemma orderLeaders_eq {ls : List Certificate} (hround : 2 ≤ leader.round)
    (h : con.orderLeaders s leader = some ls) :
    ∃ past, ls = leader :: past ∧ (∀ q ∈ past, q ∈ s.dag ∧ s.lastCommittedRound < q.round) ∧
      (ls.map Certificate.round).Pairwise (· > ·) := by
  obtain ⟨w, hwalk, rfl⟩ := Option.map_eq_some_iff.mp h
  obtain ⟨past, hpast, hmem, hfall, -⟩ := walk_eq hround hwalk
  refine ⟨past, hpast, fun q hq => ⟨(hmem q hq).1, ?_⟩, hfall⟩
  have hlow := (hmem q hq).2
  omega

/-- After a sub-dag, the last committed round is not above that of its leader. -/
lemma lastCommittedRound_sendAll_le (hround : p.1.lastCommittedRound < leader.round)
    (h : con.common.orderDag p.1 leader = some xs) :
    (con.common.sendAll p.1 p xs).1.lastCommittedRound ≤ leader.round := by
  refine MP3Consensus.sendAll_induction
    (I := fun _ p' => p'.1.lastCommittedRound ≤ leader.round) hround.le ?_
  intro pre x post p' hsplit hbound
  exact max_le hbound (MP3Consensus.round_le_of_mem_orderDag h (mem_of_split hsplit))

/-- After a sub-dag, the last committed round is that of its leader, unless its sum with
the depth overflows. -/
lemma lastCommittedRound_sendAll (hround : p.1.lastCommittedRound < leader.round)
    (hfits : leader.round + con.gcDepth < 2 ^ 64) (h : con.common.orderDag p.1 leader = some xs) :
    (con.common.sendAll p.1 p xs).1.lastCommittedRound = leader.round := by
  have hmem : leader ∈ xs := MP3Consensus.leader_mem_orderDag h (by omega) hfits
  exact Nat.le_antisymm (lastCommittedRound_sendAll_le hround h)
    (MP3Consensus.round_le_sendAll p.1 p hmem)

/-- The rule for committing leaders of rising rounds above the last committed
one, one sub-dag after the other. -/
theorem foldlM_flatten_induction {I : State × List Sent → Prop} {ls : List Certificate}
    (hwf : p.1.Wf) (hrise : (ls.map Certificate.round).Pairwise (· < ·))
    (habove : ∀ q ∈ ls, p.1.lastCommittedRound < q.round) (hI : I p)
    (hstep : ∀ p q xs, p.1.Wf → I p → q ∈ ls → p.1.lastCommittedRound < q.round →
      con.common.orderDag p.1 q = some xs → I (con.common.sendAll p.1 p xs))
    (h : ls.foldlM con.common.flatten p = some p') : p'.1.Wf ∧ I p' := by
  induction ls generalizing p with
  | nil =>
      cases h
      exact ⟨hwf, hI⟩
  | cons q ls ih =>
      obtain ⟨p₁, hflatten, hrest⟩ := foldlM_cons_eq_some.mp h
      obtain ⟨xs, hxs, rfl⟩ := MP3Consensus.flatten_eq_some hwf hflatten
      have hq := habove q (List.mem_cons_self ..)
      rw [List.map_cons, List.pairwise_cons] at hrise
      have hwf' : (con.common.sendAll p.1 p xs).1.Wf :=
        MP3Consensus.sendAll_induction (I := fun _ p => p.1.Wf) hwf
          fun _ x _ _ _ hp => State.wf_commit hp _ x
      refine ih hwf' hrise.2 (fun q' hq' => ?_)
        (hstep p q xs hwf hI (List.mem_cons_self ..) hq hxs)
        (fun p q' xs hp hI hq' => hstep p q' xs hp hI (List.mem_cons_of_mem _ hq')) hrest
      exact lt_of_le_of_lt (lastCommittedRound_sendAll_le hq hxs)
        (hrise.1 _ (List.mem_map_of_mem hq'))

/-- After leaders of rising rounds, the last committed round is that of the last
one. -/
lemma lastCommittedRound_commitLeader {past : List Certificate} (hwf : p.1.Wf)
    (hfits : leader.round + con.gcDepth < 2 ^ 64)
    (hrise : ((leader :: past).reverse.map Certificate.round).Pairwise (· < ·))
    (habove : ∀ q ∈ (leader :: past).reverse, p.1.lastCommittedRound < q.round)
    (h : (leader :: past).reverse.foldlM con.common.flatten p = some p') :
    p'.1.lastCommittedRound = leader.round := by
  rw [List.reverse_cons] at hrise habove h
  rw [List.foldlM_append] at h
  obtain ⟨p₁, hpast, hlast⟩ := Option.bind_eq_some_iff.mp h
  rw [List.map_append, List.pairwise_append] at hrise
  have hinv := foldlM_flatten_induction (I := fun p => p.1.lastCommittedRound < leader.round) hwf
    hrise.1 (fun q hq => habove q (List.mem_append_left _ hq)) (habove leader (by simp)) ?_ hpast
  · obtain ⟨p₂, hflatten, heq⟩ := foldlM_cons_eq_some.mp hlast
    cases heq
    obtain ⟨xs, hxs, rfl⟩ := MP3Consensus.flatten_eq_some hinv.1 hflatten
    exact lastCommittedRound_sendAll hinv.2 hfits hxs
  · intro p q xs _ _ hq hround hxs
    exact lt_of_le_of_lt (lastCommittedRound_sendAll_le hround hxs)
      (hrise.2.2 _ (List.mem_map_of_mem hq) _ (by simp))

/-- The leaders that are committed with a leader, oldest first: their rounds rise
above the last committed one, and the leader comes last. -/
lemma commitLeader_eq_some (hround : 2 ≤ leader.round)
    (habove : s.lastCommittedRound < leader.round) :
    con.commitLeader s leader = some p' ↔ ∃ past,
      con.orderLeaders s leader = some (leader :: past) ∧
      (∀ q ∈ past, q ∈ s.dag) ∧
      (∀ q ∈ (leader :: past).reverse, s.lastCommittedRound < q.round) ∧
      ((leader :: past).reverse.map Certificate.round).Pairwise (· < ·) ∧
      (leader :: past).reverse.foldlM con.common.flatten (s, []) = some p' := by
  constructor
  · intro h
    rw [commitLeader] at h
    split at h
    · cases h
    · rename_i ls hls
      obtain ⟨past, rfl, hpast, hfall⟩ := orderLeaders_eq hround hls
      refine ⟨past, hls, fun q hq => (hpast q hq).1, fun q hq => ?_, ?_, h⟩
      · rcases List.mem_cons.mp (List.mem_reverse.mp hq) with rfl | hq
        · exact habove
        · exact (hpast q hq).2
      · rw [List.map_reverse, List.pairwise_reverse]
        exact hfall
  · rintro ⟨past, hls, -, -, -, h⟩
    rw [commitLeader, hls]
    exact h

/-! ### Integrity -/

/-- **Integrity.** If no certificate is delivered that has been sent and is below
the last committed round of its origin, none is sent twice. -/
theorem nodup_tusk_output (con : Consensus) (certificates : List Certificate)
    (hagain : ForallSplit (fun pre c => c ∈ (con.run pre).output →
      ∀ r ∈ (con.run pre).state.lastCommitted.lookup c.origin, r ≤ c.round) certificates) :
    (con.run certificates).output.Nodup := by
  refine (run_induction (I := fun _ r => r.state.Wf ∧ Clean r.state r.output)
    (C := fun _ r c => c ∈ r.output →
      ∀ round ∈ r.state.lastCommitted.lookup c.origin, round ≤ c.round)
    ?_ ?_ ?_ ?_ ?_ hagain).2.nodup
  · exact ⟨(Chained.start con.common).wf, List.nodup_nil, fun _ hc => absurd hc List.not_mem_nil,
      fun _ _ hc => absurd hc List.not_mem_nil⟩
  · exact fun pre c r _ h => h
  · rintro pre c r - ⟨hwf, h⟩ hc
    refine ⟨⟨hwf.bounded, hwf.attained⟩, h.nodup, h.bound, fun x hdag hx => ?_⟩
    rcases mem_insertCertificate.mp hdag with rfl | ⟨hdag, -⟩
    · obtain ⟨round, hround, hle⟩ := h.bound x hx
      exact hround.trans (congrArg some (le_antisymm (hc hx round hround) hle))
    · exact h.atLast x hdag hx
  · intro pre r round leader s sequence _ ⟨hwf, h⟩ helected hcommit
    obtain ⟨past, -, -, habove, hrise, hloop⟩ :=
      (commitLeader_eq_some helected.two_le helected.above).mp hcommit
    have hinv := foldlM_flatten_induction
      (I := fun p => Clean p.1 (r.output ++ p.2.map Sent.certificate)) hwf hrise habove
      (by rw [List.map_nil, List.append_nil]; exact h) ?_ hloop
    · rw [TuskReplica.output, TuskReplica.commit, List.map_append]
      exact hinv
    · intro p q xs hp hclean _ hq hxs
      have hnew := hclean.notMem_of_lt hp hq
      exact hclean.sendAll (MP3Consensus.nodup_orderDag hxs) fun x hx =>
        hclean.notMem_of_mem_orderDag hnew hxs hx
  · exact fun pre r h => h

/-! ### Progress -/

end Consensus

namespace Grounded

variable {con : Consensus} {delivered : List Certificate} {s : State} {r : TuskReplica}
  {c leader : Certificate}

/-- The walk from a delivered leader down to the last committed round does not
fail. -/
lemma exists_tusk_orderLeaders (hs : Grounded con.common delivered s)
    (hleader : leader ∈ con.common.genesis ++ delivered) :
    ∃ leaders, con.orderLeaders s leader = some leaders := by
  have hloop := exists_foldlM (f := con.common.walkLeaders s.dag) (b := ([leader], leader))
    (l := leaderRounds (s.lastCommittedRound + 2) (leader.round - 2))
    (I := fun _ walk => walk.2 ∈ con.common.genesis ++ delivered) hleader ?_
  · obtain ⟨walk, hwalk, -⟩ := hloop
    exact ⟨_, Option.map_eq_some_iff.mpr ⟨walk, hwalk, rfl⟩⟩
  intro pre round post walk hsplit hwalk
  have hlow := (mem_leaderRounds.mp (mem_of_split hsplit)).1
  rw [MP3Consensus.walkLeaders]
  cases hprev : con.common.primaryLeader round s.dag with
  | none => exact ⟨walk, rfl, hwalk⟩
  | some prev =>
      obtain ⟨hdag, hprevround⟩ := MP3Consensus.mem_of_primaryLeader hprev
      obtain ⟨found, hfound⟩ := hs.exists_linked hwalk
        (show s.lastCommittedRound < prev.round by omega)
      cases found with
      | false => exact ⟨walk, by simp only [hfound], hwalk⟩
      | true =>
          exact ⟨(walk.1 ++ [prev], prev), by simp only [hfound], hs.delivered_of_dag prev hdag⟩

/-- An elected leader can be committed. -/
lemma exists_tusk_commitLeader {round : ℕ} (hs : Grounded con.common delivered s)
    (helected : Consensus.Elected con s round leader) :
    ∃ p', con.commitLeader s leader = some p' ∧ Grounded con.common delivered p'.1 := by
  have hleader := hs.delivered_of_dag leader
    (MP3Consensus.mem_of_primaryLeader helected.primary).1
  obtain ⟨leaders, hleaders⟩ := hs.exists_tusk_orderLeaders hleader
  obtain ⟨past, rfl, hpast, -⟩ := Consensus.orderLeaders_eq helected.two_le hleaders
  have hdelivered : ∀ q ∈ leader :: past, q ∈ con.common.genesis ++ delivered :=
    List.forall_mem_cons.mpr ⟨hleader, fun q hq => hs.delivered_of_dag q (hpast q hq).1⟩
  obtain ⟨p', hp', hgrounded⟩ := exists_foldlM (f := con.common.flatten) (b := (s, []))
    (l := (leader :: past).reverse) (I := fun _ p => Grounded con.common delivered p.1) hs
    fun pre q post p hsplit hp =>
      hp.exists_flatten (hdelivered q (List.mem_reverse.mp (mem_of_split hsplit)))
  exact ⟨p', by rw [Consensus.commitLeader, hleaders]; exact hp', hgrounded⟩

/-- The stake behind a leader is compared without an overflow. -/
lemma supportPanics_eq_false (hs : Grounded con.common delivered s) (round : ℕ)
    (leader : Certificate) : con.supportPanics round leader s.dag = false := by
  cases hchecks : con.overflowChecks with
  | false => rw [Consensus.supportPanics, hchecks, Bool.false_and]
  | true =>
      have hstakes : con.committee.totalStake + 2 < 2 ^ 32 := hs.fits.stakes hchecks
      have hle : con.common.supportStake round leader s.dag ≤ con.committee.totalStake :=
        con.common.supportStake_le hs.slots round leader
      have hsupport : ¬2 ^ 32 ≤ con.common.supportStake round leader s.dag := by omega
      rw [Consensus.supportPanics, decide_eq_false hsupport, decide_eq_false (not_le.mpr hstakes),
        Bool.or_false, Bool.and_false]

/-- Receiving a certificate above round zero does not halt. -/
lemma tusk_receive (hs : Grounded con.common delivered r.state) (hrunning : r.halted = false)
    (h : con.common.Admissible (delivered ++ [c])) (hfits : con.common.Fits (delivered ++ [c]))
    (hround : 1 ≤ c.round) :
    Grounded con.common (delivered ++ [c]) (con.receive r c).state ∧
      (con.receive r c).halted = false := by
  have hinsert : Grounded con.common (delivered ++ [c]) (r.insert c).state := hs.insert h hfits
  rcases Consensus.receive_cases con r c with ⟨hhalted, -⟩ | ⟨-, heq⟩ |
    ⟨-, -, hzero | hnone | ⟨leader, helected, hnone⟩⟩ |
    ⟨leader, s, sequence, -, helected, hcommit, heq⟩
  · rw [hrunning] at hhalted
    cases hhalted
  · rw [heq]
    exact ⟨hinsert, hrunning⟩
  · omega
  · -- the round of the children is below the certificate, so it has been delivered
    obtain ⟨habove, hfive, hnil | ⟨leader, hpanics⟩⟩ := Consensus.supportedLeader_eq_none hnone
    swap
    · rw [hinsert.supportPanics_eq_false] at hpanics
      cases hpanics
    obtain ⟨q, hq, hqround⟩ := hinsert.admissible.exists_round
      (List.mem_append_right _ (List.mem_singleton.mpr rfl)) (show 1 ≤ c.round - 2 by omega)
      (show c.round - 2 ≤ c.round by omega)
    obtain ⟨x, hx, hxround⟩ := hinsert.exists_of_delivered q hq (by omega)
    have hmem : x ∈ atRound (c.round - 2) (r.insert c).state.dag :=
      mem_atRound.mpr ⟨hx, hxround.trans hqround⟩
    rw [hnil] at hmem
    cases hmem
  · obtain ⟨p', hp', -⟩ := hinsert.exists_tusk_commitLeader helected
    rw [hnone] at hp'
    cases hp'
  · obtain ⟨p', hp', hgrounded⟩ := hinsert.exists_tusk_commitLeader helected
    rw [hcommit] at hp'
    cases hp'
    rw [heq]
    exact ⟨hgrounded, hrunning⟩

end Grounded

namespace Consensus

/-- A run of an admissible history above the genesis stays grounded and does not
halt. -/
lemma grounded_tusk_run {con : Consensus} {order : List Certificate}
    (h : con.common.Admissible order) (hfits : con.common.Fits order)
    (hrounds : ∀ c ∈ order, 1 ≤ c.round) :
    Grounded con.common order (con.run order).state ∧ (con.run order).halted = false := by
  refine foldl_induction (f := con.receive) (b := con.start) (l := order) (I := fun pre r =>
    Grounded con.common pre r.state ∧ r.halted = false) ?_ ?_
  · rw [← List.nil_append order] at hfits
    exact ⟨MP3Consensus.grounded_start hfits.of_append, rfl⟩
  · rintro pre c post rfl ⟨hgrounded, hrunning⟩
    have hround := hrounds c (by simp)
    rw [List.append_cons] at h hfits
    exact hgrounded.tusk_receive hrunning (ForallSplit.of_append h) hfits.of_append hround

/-- **The task does not panic**, whatever admissible history above the genesis it
is given, unless a sum overflows. -/
theorem not_halted_run (con : Consensus) (order : List Certificate)
    (h : con.common.Admissible order) (hfits : con.common.Fits order)
    (hrounds : ∀ c ∈ order, 1 ≤ c.round) : (con.run order).halted = false :=
  (grounded_tusk_run h hfits hrounds).2

/-! ### Two authorities -/

/-- Two authorities, of stakes one and three: the first leads the even rounds, the
second is a quorum. -/
def twoAuthorities : Consensus where
  committee := MP3Consensus.twoAuthorities.committee
  gcDepth := 50
  overflowChecks := true
  hash := fun id round origin => Nat.pair id (Nat.pair round origin)
  collisionFree := MP3Consensus.pair_collisionFree

/-- The certificates of both authorities, round after round. -/
def bothChains (rounds : ℕ) : List Certificate :=
  (List.range rounds).flatMap fun i =>
    [MP3Consensus.certifyBoth (i + 1) 0, MP3Consensus.certifyBoth (i + 1) 1]

/-- The leader of round four is delivered again once it has been committed. -/
theorem nodup_tusk_output_bothChains :
    (twoAuthorities.run (bothChains 7 ++ [MP3Consensus.certifyBoth 4 0])).output.length = 7 ∧
      (twoAuthorities.run (bothChains 7 ++ [MP3Consensus.certifyBoth 4 0])).output.Nodup :=
  ⟨by decide +kernel, nodup_tusk_output _ _ (by decide +kernel)⟩

theorem not_halted_bothChains :
    (twoAuthorities.run (bothChains 5)).output.length = 3 ∧
      (twoAuthorities.run (bothChains 5)).halted = false :=
  ⟨by decide +kernel,
    not_halted_run twoAuthorities (bothChains 5) (by decide +kernel) (by decide +kernel)
      (by decide +kernel)⟩

end Consensus

end StablecoinSystem
