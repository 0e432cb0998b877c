import StablecoinSystem.Narwhal.Dag

/-!
`MP3Consensus` (`consensus/src/mp3bft.rs`): leader rounds are prepared as
certificates arrive, and the oldest of three prepared rounds is committed by
flattening the sub-dags of its leaders.

`none` is a panic of the task: the `expect` of `linked`, the `unwrap` of
`State::update`, and in a build with overflow checks any sum or difference that
does not fit. A replica that panics is `halted` and sends nothing more. The
leaders rotate as in a build that is not a test.

* `receive_cases`: what receiving a certificate does;
* `commitChain_induction`: what committing a block and halting keep holds after
  the loop that commits.
-/

namespace StablecoinSystem

/-- `MP3Consensus`: the parameters of a replica, and whether it was built with
overflow checks. `hash` is the function under `Certificate::digest`, of the id,
the round and the origin, without collisions. -/
structure MP3Consensus where
  committee : Committee
  gcDepth : ℕ
  kSlots : ℕ
  overflowChecks : Bool
  hash : ℕ → ℕ → ℕ → ℕ
  collisionFree : ∀ id round origin id' round' origin',
    hash id round origin = hash id' round' origin' → id = id' ∧ round = round' ∧ origin = origin'

/-- A certificate on its way to `tx_output`, with the states in which `order_dag`
found it and in which `State::update` was called with it. -/
structure Sent where
  certificate : Certificate
  flattened : State
  before : State

namespace MP3Consensus

variable (con : MP3Consensus)

/-- `Certificate::digest`. -/
def digest (c : Certificate) : ℕ := con.hash c.id c.round c.origin

def genesis : List Certificate := Certificate.genesis con.committee

/-! ### Leaders -/

/-- One slot of `slot_leaders`: the leaders elected so far, and the keys they
use. -/
def electSlot (round : ℕ) (dag : List Certificate) (elected : List Certificate × List ℕ)
    (slot : ℕ) : List Certificate × List ℕ :=
  match con.committee.keys[(round + slot) % 2 ^ 64 % con.committee.keys.length]? with
  | none => elected
  | some key =>
      if key ∈ elected.2 then elected
      else
        match certificateOf round key dag with
        | none => elected
        | some c => (elected.1 ++ [c], elected.2 ++ [key])

/-- The number of slots in a round. -/
def slots : ℕ := min con.kSlots con.committee.keys.length

/-- `slot_leaders`. -/
def slotLeaders (round : ℕ) (dag : List Certificate) : List Certificate :=
  ((List.range con.slots).foldl (con.electSlot round dag) ([], [])).1

/-- The stakes of the certificates of `round` that have `leader` as a parent,
together. -/
def supportStake (round : ℕ) (leader : Certificate) (dag : List Certificate) : ℕ :=
  (((atRound round dag).filter fun x => con.digest leader ∈ x.parents).map fun x =>
    con.committee.stake x.origin).sum

/-- The same as a `u32`. -/
def support (round : ℕ) (leader : Certificate) (dag : List Certificate) : ℕ :=
  con.supportStake round leader dag % 2 ^ 32

/-- The slot leaders of a round that have enough support in the next one. -/
def supportedLeaders (leaderRound : ℕ) (dag : List Certificate) : List Certificate :=
  (con.slotLeaders leaderRound dag).filter fun leader =>
    con.committee.validityThreshold ≤ con.support (leaderRound + 1) leader dag

/-- Whether a build with overflow checks panics while it looks for the leaders of a
round: the index of a slot, the stake behind a leader or the sum in
`validity_threshold` overflows. -/
def electionPanics (leaderRound : ℕ) (dag : List Certificate) : Bool :=
  con.overflowChecks && !(atRound leaderRound dag).isEmpty &&
    (decide (2 ^ 64 < leaderRound + con.slots) ||
      (!(con.slotLeaders leaderRound dag).isEmpty &&
        (decide (2 ^ 32 ≤ con.committee.totalStake + 2) ||
          (con.slotLeaders leaderRound dag).any fun leader =>
            decide (2 ^ 32 ≤ con.supportStake (leaderRound + 1) leader dag))))

/-- `primary_leader`. -/
def primaryLeader (round : ℕ) (dag : List Certificate) : Option Certificate :=
  match con.committee.keys[round % con.committee.size]? with
  | none => none
  | some leader => certificateOf round leader dag

/-- One round of `linked`: the certificates of `round` that are parents of one
of the given. -/
def linkedParents (dag : List Certificate) (parents : List Certificate) (round : ℕ) :
    Option (List Certificate) :=
  match atRound round dag with
  | [] => none
  | certificates => some (certificates.filter fun c =>
      parents.any fun x => decide (con.digest c ∈ x.parents))

/-- `linked`. -/
def linked (leader prevLeader : Certificate) (dag : List Certificate) : Option Bool :=
  ((List.range' prevLeader.round (leader.round - prevLeader.round)).reverse.foldlM
    (con.linkedParents dag) [leader]).map fun parents => parents.any fun x => x.eq prevLeader

/-- One round of `order_leaders`: the leaders to commit so far, and the last
of them. -/
def walkLeaders (dag : List Certificate) (walk : List Certificate × Certificate) (round : ℕ) :
    Option (List Certificate × Certificate) :=
  match con.primaryLeader round dag with
  | none => some walk
  | some prevLeader =>
      match con.linked walk.2 prevLeader dag with
      | none => none
      | some true => some (walk.1 ++ [prevLeader], prevLeader)
      | some false => some walk

/-- `order_leaders`. -/
def orderLeaders (s : State) (leader : Certificate) : Option (List Certificate) :=
  ((List.range' (s.lastCommittedRound + 1)
    (leader.round - 1 - s.lastCommittedRound)).reverse.foldlM (con.walkLeaders s.dag)
      ([leader], leader)).map Prod.fst

/-! ### Sub-dags -/

/-- The parents of a certificate that `order_dag` follows: those in the dag
that are not the last committed of their origin. At round zero `x.round() - 1`
does not fit: a release build looks up round `u64::MAX`, of which there is no
certificate. -/
def uncommittedParents (s : State) (x : Certificate) : Option (List Certificate) :=
  if x.parents = [] then some []
  else if x.round = 0 then if con.overflowChecks then none else some []
  else some (x.parents.filterMap fun parent =>
    match (atRound (x.round - 1) s.dag).find? fun c => con.digest c = parent with
    | none => none
    | some c => if s.lastCommitted.lookup c.origin = some c.round then none else some c)

/-- `order_dag`. -/
def orderDag (s : State) (leader : Certificate) : Option (List Certificate) :=
  match traverse (con.uncommittedParents s) con.digest (s.dag.length + 1) [leader] [] [] with
  | none => none
  | some ordered =>
      (retainDepth con.overflowChecks con.gcDepth s.lastCommittedRound ordered).map
        (List.insertionSort Certificate.roundLe)

/-! ### Committing a block -/

/-- `state.update` and `sequence.push` for one certificate of a sub-dag. -/
def send (flattened : State) (p : State × List Sent) (x : Certificate) :
    Option (State × List Sent) :=
  (p.1.update con.overflowChecks con.gcDepth x).map fun s => (s, p.2 ++ [⟨x, flattened, p.1⟩])

/-- The loop over the sub-dag of a leader. -/
def flatten (p : State × List Sent) (pastLeader : Certificate) : Option (State × List Sent) :=
  match con.orderDag p.1 pastLeader with
  | none => none
  | some xs => xs.foldlM (con.send p.1) p

/-- The loop over the leaders linked to a slot leader. -/
def commitLeader (p : State × List Sent) (leader : Certificate) : Option (State × List Sent) :=
  match con.orderLeaders p.1 leader with
  | none => none
  | some linkedLeaders => linkedLeaders.reverse.foldlM con.flatten p

/-- The sequence of certificates that a committed block puts out. -/
def commitBlock (s : State) (block : MacroBlock) : Option (State × List Sent) :=
  block.slotQc.leaders.foldlM con.commitLeader (s, [])

end MP3Consensus

/-! ### The replica -/

/-- The variables of `MP3Consensus::run`, what it has sent on `tx_output`, and
the blocks it has committed, as it logs them. -/
structure Replica where
  state : State
  lastPreparedRound : ℕ
  sent : List Sent
  committed : List MacroBlock
  halted : Bool

namespace Replica

/-- The certificates sent. -/
def output (r : Replica) : List Certificate := r.sent.map Sent.certificate

/-- `state.dag` with a received certificate. -/
def insert (r : Replica) (c : Certificate) : Replica :=
  { r with state := { r.state with dag := insertCertificate c r.state.dag } }

/-- Extend the prepared chain by a block, or start it anew with the block. -/
def prepare (r : Replica) (block : MacroBlock) : Replica :=
  let consecutive :=
    match r.state.preparedChain.getLast? with
    | none => true
    | some tail => decide (block.height = tail.height + 1)
  { r with
    lastPreparedRound := block.round
    state :=
      { r.state with
        nextHeight := r.state.nextHeight + 1
        preparedChain := if consecutive then r.state.preparedChain ++ [block] else [block] } }

/-- Send the sequence of a committed block. -/
def commit (r : Replica) (s : State) (sequence : List Sent) (block : MacroBlock) : Replica :=
  { r with
    state := s
    sent := r.sent ++ sequence
    committed := r.committed ++ [block] }

/-- The task has panicked. -/
def halt (r : Replica) : Replica := { r with halted := true }

end Replica

namespace MP3Consensus

variable (con : MP3Consensus)

/-- The block that a certificate of `round` prepares, if any. -/
def nextBlock (dag : List Certificate) (lastPreparedRound height round : ℕ) :
    Option MacroBlock :=
  if round < 2 then none
  else if round - 1 ≤ lastPreparedRound then none
  else
    match con.supportedLeaders (round - 1) dag with
    | [] => none
    | leaders => some ⟨height, round - 1, ⟨round - 1, leaders⟩⟩

/-- The loop that commits while three blocks are prepared. -/
def commitChain : ℕ → Replica → Replica
  | 0, r => r
  | fuel + 1, r =>
      match r.state.preparedChain with
      | block :: b :: b' :: rest =>
          match con.commitBlock { r.state with preparedChain := b :: b' :: rest } block with
          | none => r.halt
          | some (s, sequence) =>
              commitChain fuel (r.commit s sequence block)
      | _ => r

/-- The body of the loop of `run`. -/
def receive (r : Replica) (c : Certificate) : Replica :=
  if r.halted then r
  else if c.round - 1 ≤ r.state.lastCommittedRound then r.insert c
  else if r.lastPreparedRound < c.round - 1 ∧
      con.electionPanics (c.round - 1) (r.insert c).state.dag then (r.insert c).halt
  else
    match con.nextBlock (r.insert c).state.dag r.lastPreparedRound r.state.nextHeight c.round with
    | none => r.insert c
    | some block =>
        con.commitChain (r.state.preparedChain.length + 1) ((r.insert c).prepare block)

/-- The state in which `run` starts. -/
def start : Replica := ⟨State.new con.genesis, 0, [], [], false⟩

/-- The state after a sequence of certificates has been received. -/
def run (certificates : List Certificate) : Replica := certificates.foldl con.receive con.start

/-! ### What a step does -/

variable {con} {r : Replica} {c : Certificate}

/-- A certificate is ignored by a replica that has halted, or inserted, or
inserted and then the replica halts or prepares a block. -/
lemma receive_cases (con : MP3Consensus) (r : Replica) (c : Certificate) :
    (r.halted = true ∧ con.receive r c = r) ∨
      (r.halted = false ∧ con.receive r c = r.insert c ∧
        (c.round - 1 ≤ r.state.lastCommittedRound ∨ con.nextBlock (r.insert c).state.dag
          r.lastPreparedRound r.state.nextHeight c.round = none)) ∨
      (r.halted = false ∧ con.receive r c = (r.insert c).halt ∧ 2 ≤ c.round ∧
        con.electionPanics (c.round - 1) (r.insert c).state.dag = true) ∨
      ∃ block, r.halted = false ∧ r.state.lastCommittedRound < c.round - 1 ∧
        con.nextBlock (r.insert c).state.dag r.lastPreparedRound r.state.nextHeight c.round =
          some block ∧
        con.receive r c =
          con.commitChain (r.state.preparedChain.length + 1) ((r.insert c).prepare block) := by
  by_cases hhalted : r.halted = true
  · exact Or.inl ⟨hhalted, if_pos hhalted⟩
  · have hrunning : r.halted = false := Bool.eq_false_iff.mpr hhalted
    right
    rw [receive, if_neg hhalted]
    split
    · rename_i hle
      exact Or.inl ⟨hrunning, rfl, Or.inl hle⟩
    · rename_i hgt
      split
      · rename_i hpanics
        exact Or.inr (Or.inl ⟨hrunning, rfl, by omega, hpanics.2⟩)
      · split
        · rename_i hnone
          exact Or.inl ⟨hrunning, rfl, Or.inr hnone⟩
        · rename_i block hblock
          exact Or.inr (Or.inr ⟨block, hrunning, not_le.mp hgt, hblock, rfl⟩)

/-- What committing the oldest of three blocks and halting keep holds after the
loop that commits. -/
lemma commitChain_induction {I : Replica → Prop} {fuel : ℕ}
    (hcommit : ∀ r block b b' rest s sequence, I r → r.halted = false →
      r.state.preparedChain = block :: b :: b' :: rest →
      con.commitBlock { r.state with preparedChain := b :: b' :: rest } block =
        some (s, sequence) → I (r.commit s sequence block))
    (hhalt : ∀ r, I r → I r.halt) (hrunning : r.halted = false) (hr : I r) :
    I (con.commitChain fuel r) := by
  induction fuel generalizing r with
  | zero => exact hr
  | succ fuel ih =>
      rw [commitChain]
      split
      · rename_i block b b' rest hchain
        split
        · exact hhalt r hr
        · rename_i s sequence hblock
          exact ih hrunning (hcommit r block b b' rest s sequence hr hrunning hchain hblock)
      · exact hr

/-- The block that a certificate prepares: the leader round is new, and its
leaders have the support they need. -/
lemma nextBlock_eq_some {dag : List Certificate} {lastPreparedRound height round : ℕ}
    {block : MacroBlock} (h : con.nextBlock dag lastPreparedRound height round = some block) :
    lastPreparedRound < round - 1 ∧ con.supportedLeaders (round - 1) dag ≠ [] ∧
      block = ⟨height, round - 1, ⟨round - 1, con.supportedLeaders (round - 1) dag⟩⟩ := by
  rw [nextBlock] at h
  split at h
  · cases h
  · split at h
    · cases h
    · rename_i hnew
      split at h
      · cases h
      · rename_i leaders hleaders
        cases h
        exact ⟨not_le.mp hnew, hleaders, rfl⟩

end MP3Consensus

end StablecoinSystem
