import StablecoinSystem.Narwhal.Stake
import StablecoinSystem.Network.ReliableSender

/-!
How a worker turns transactions into batches and hands them to its primary
(`worker/src/batch_maker.rs`, `worker/src/quorum_waiter.rs`, `worker/src/processor.rs`).

The batch maker seals batches and sends each to the workers of the same id of the other
authorities, over one link each. The quorum waiter takes the batches one after the
other and waits until enough of those workers have acknowledged one; then it drops the
handlers of the others and gives the batch to the processor, which hashes it, stores it
and reports the digest. A step is one turn of the loop of a task, or one event at a
link.

* `transactions_kept`: the batches are the transactions in the order in which they came;
* `Stuck.step`: a batch maker with an empty transaction makes no more batches, if it was
  built with the feature `benchmark`;
* `empty_transaction_halts`: so an empty transaction stops it.
-/

namespace StablecoinSystem.Dissemination

open ReliableSender (InnerMessage Link)

/-- `Transaction`. -/
abbrev Transaction := List UInt8

/-- `Batch`. -/
abbrev Batch := List Transaction

/-- A worker: the committee, the ids of the workers of each authority, the name of the
authority and the id, the preferred size of a batch, and whether it was built with the
feature `benchmark`. -/
structure WorkerConfig where
  committee : Committee
  workers : ℕ → List ℕ
  name : ℕ
  id : ℕ
  batchSize : ℕ
  benchmark : Bool

/-- `others_workers`: the names of the authorities. -/
def WorkerConfig.othersWorkers (cfg : WorkerConfig) : List ℕ :=
  cfg.committee.keys.filter fun other => other ≠ cfg.name ∧ cfg.id ∈ cfg.workers other

/-- `BatchMaker`, without its channels. -/
structure BatchMaker where
  currentBatch : Batch
  currentBatchSize : ℕ

/-- `QuorumWaiterMessage`: a batch, and the handler for each of the other workers. -/
structure QuorumWaiterMessage where
  batch : Batch
  handlers : List (ℕ × ℕ)

/-- The loop of the quorum waiter over the acknowledgements of a batch. -/
structure Quorum where
  batch : Batch
  waitForQuorum : List (ℕ × ℕ)
  totalStake : ℕ

/-- The tasks of a worker: the batch maker, which may have panicked, the links to the other
workers, the messages to the quorum waiter and its loop, and the batches that were
given to the processor. `transactions` and `sealedBatches` are what was received and
made. -/
structure Worker where
  maker : BatchMaker
  halted : Bool
  links : ℕ → Link Batch
  messages : List QuorumWaiterMessage
  quorum : Option Quorum
  processor : List Batch
  transactions : List Transaction
  sealedBatches : List Batch

/-- What happens at a worker. -/
inductive Event where
  | transaction (t : Transaction)
  | timer
  | link (name : ℕ) (e : ReliableSender.Event Batch)
  | next
  | ack (i : ℕ)

namespace Worker

variable (cfg : WorkerConfig) (w : Worker)

/-- `Worker::spawn`. -/
def spawn : Worker := ⟨⟨[], 0⟩, false, fun _ => Link.start, [], none, [], [], []⟩

/-- `seal`. With the feature `benchmark` it looks at the first byte of each transaction. -/
def sealBatch : Worker :=
  if cfg.benchmark = true ∧ [] ∈ w.maker.currentBatch then { w with halted := true }
  else
    { w with
      maker := ⟨[], 0⟩
      links := fun name =>
        if name ∈ cfg.othersWorkers then (w.links name).step (.submit w.maker.currentBatch)
        else w.links name
      messages := w.messages ++ [⟨w.maker.currentBatch,
        cfg.othersWorkers.map fun name => (name, (w.links name).submitted.length)⟩]
      sealedBatches := w.sealedBatches ++ [w.maker.currentBatch] }

/-- A transaction comes in. -/
def push (t : Transaction) : Worker :=
  { w with
    maker := ⟨w.maker.currentBatch ++ [t], w.maker.currentBatchSize + t.length⟩
    transactions := w.transactions ++ [t] }

/-- The batch maker receives a transaction. -/
def receiveTransaction (t : Transaction) : Worker :=
  if cfg.batchSize ≤ (w.push t).maker.currentBatchSize then (w.push t).sealBatch cfg
  else w.push t

/-- The timer of the batch maker expires. -/
def expire : Worker := if w.maker.currentBatch = [] then w else w.sealBatch cfg

/-- The quorum waiter takes the next message. Without handlers its loop ends at once. -/
def next : Worker :=
  match w.quorum, w.messages with
  | none, m :: rest =>
      if m.handlers = [] then { w with messages := rest }
      else
        { w with
          messages := rest
          quorum := some ⟨m.batch, m.handlers, cfg.committee.stake cfg.name⟩ }
  | _, _ => w

/-- Drop handlers. -/
def dropHandlers (handlers : List (ℕ × ℕ)) : Worker :=
  { w with
    links := fun name => (handlers.filter fun entry => entry.1 = name).foldl
      (fun l entry => l.step (.cancel entry.2)) (w.links name) }

/-- The stake of one more worker is added, a sum of `u32`s that wraps as in a release
build. -/
def addStake (q : Quorum) (name : ℕ) (rest : List (ℕ × ℕ)) : Worker :=
  let totalStake := (q.totalStake + cfg.committee.stake name) % 2 ^ 32
  if cfg.committee.quorumThreshold ≤ totalStake then
    { w with quorum := none, processor := w.processor ++ [q.batch] }.dropHandlers rest
  else if rest = [] then { w with quorum := none }
  else { w with quorum := some ⟨q.batch, rest, totalStake⟩ }

/-- One of the handlers that the quorum waiter waits for has been notified. -/
def acknowledge (i : ℕ) : Worker :=
  match w.quorum with
  | none => w
  | some q =>
      match q.waitForQuorum[i]? with
      | none => w
      | some (name, handler) =>
          if (w.links name).connection.notified.any fun m => m.handler = handler then
            w.addStake cfg q name (q.waitForQuorum.eraseIdx i)
          else w

/-- Only the batch maker submits messages, and only the quorum waiter drops handlers. -/
def linkStep (name : ℕ) : ReliableSender.Event Batch → Worker
  | .submit _ | .cancel _ => w
  | e => { w with links := Function.update w.links name ((w.links name).step e) }

/-- One step. -/
def step : Event → Worker
  | .transaction t => if w.halted then w else w.receiveTransaction cfg t
  | .timer => if w.halted then w else w.expire cfg
  | .link name e => w.linkStep name e
  | .next => w.next cfg
  | .ack i => w.acknowledge cfg i

/-- A worker after some steps. -/
def run (events : List Event) : Worker := events.foldl (step cfg) spawn

lemma run_append_singleton (events : List Event) (e : Event) :
    run cfg (events ++ [e]) = (run cfg events).step cfg e := by
  rw [run, List.foldl_append]
  rfl

/-! ### Transactions -/

/-- The size of a batch in bytes. -/
def bytes (b : Batch) : ℕ := (b.map List.length).sum

/-- What the batch maker has made of the transactions. A batch is no larger than the
preferred size without its last transaction. -/
structure Batching (cfg : WorkerConfig) (w : Worker) : Prop where
  conserved : w.sealedBatches.flatten ++ w.maker.currentBatch = w.transactions
  size : w.maker.currentBatchSize = bytes w.maker.currentBatch
  small : w.halted = false →
    w.maker.currentBatch = [] ∨ bytes w.maker.currentBatch < cfg.batchSize
  batches : ∀ b ∈ w.sealedBatches, b ≠ [] ∧ (b.dropLast = [] ∨ bytes b.dropLast < cfg.batchSize)

variable {cfg w}

lemma bytes_dropLast_le (b : Batch) : bytes b.dropLast ≤ bytes b :=
  ((List.dropLast_sublist b).map List.length).sum_le_sum fun _ _ => Nat.zero_le _

/-- Steps of the other tasks. -/
lemma Batching.of_eq {w' : Worker} (h : w.Batching cfg) (hmaker : w'.maker = w.maker)
    (hhalted : w'.halted = w.halted) (htransactions : w'.transactions = w.transactions)
    (hsealed : w'.sealedBatches = w.sealedBatches) : w'.Batching cfg := by
  obtain ⟨hconserved, hsize, hsmall, hbatches⟩ := h
  exact ⟨by rw [hmaker, htransactions, hsealed, hconserved], by rw [hmaker, hsize],
    by rwa [hmaker, hhalted], by rwa [hsealed]⟩

/-- A batch is sealed, or the batch maker panics. -/
lemma batching_sealBatch (hconserved : w.sealedBatches.flatten ++ w.maker.currentBatch =
      w.transactions) (hsize : w.maker.currentBatchSize = bytes w.maker.currentBatch)
    (hbatches : ∀ b ∈ w.sealedBatches,
      b ≠ [] ∧ (b.dropLast = [] ∨ bytes b.dropLast < cfg.batchSize))
    (hne : w.maker.currentBatch ≠ [])
    (hsmall : w.maker.currentBatch.dropLast = [] ∨
      bytes w.maker.currentBatch.dropLast < cfg.batchSize) :
    (w.sealBatch cfg).Batching cfg := by
  rw [sealBatch]
  split_ifs
  · exact ⟨hconserved, hsize, fun h => absurd h (by simp), hbatches⟩
  -- the current batch becomes the last sealed one, and a new one starts
  · refine ⟨?_, rfl, fun _ => Or.inl rfl, List.forall_mem_append.mpr ⟨hbatches,
      List.forall_mem_singleton.mpr ⟨hne, hsmall⟩⟩⟩
    rw [List.flatten_append, List.flatten_singleton, List.append_nil]
    exact hconserved

lemma Batching.receiveTransaction (h : w.Batching cfg) (hrunning : w.halted = false)
    (t : Transaction) : (w.receiveTransaction cfg t).Batching cfg := by
  have hconserved : w.sealedBatches.flatten ++ (w.maker.currentBatch ++ [t]) =
      w.transactions ++ [t] := by
    rw [← List.append_assoc, h.conserved]
  have hsize : w.maker.currentBatchSize + t.length = bytes (w.maker.currentBatch ++ [t]) := by
    rw [h.size, bytes, bytes, List.map_append, List.sum_append, List.map_singleton,
      List.sum_singleton]
  rw [Worker.receiveTransaction]
  split
  · refine batching_sealBatch hconserved hsize h.batches (by simp [push]) ?_
    rw [push, List.dropLast_concat]
    exact h.small hrunning
  -- the batch is below the size with the transaction, so it is without its last one
  · rename_i hless
    refine ⟨hconserved, hsize, fun _ => Or.inr ?_, h.batches⟩
    rw [push, ← hsize]
    exact not_le.mp hless

lemma Batching.expire (h : w.Batching cfg) (hrunning : w.halted = false) :
    (w.expire cfg).Batching cfg := by
  rw [Worker.expire]
  split
  · exact h
  · rename_i hne
    refine batching_sealBatch h.conserved h.size h.batches hne (Or.inr ?_)
    exact (bytes_dropLast_le _).trans_lt ((h.small hrunning).resolve_left hne)

lemma Batching.linkStep (h : w.Batching cfg) (name : ℕ) (e : ReliableSender.Event Batch) :
    (w.linkStep name e).Batching cfg := by
  cases e <;> exact h.of_eq rfl rfl rfl rfl

lemma Batching.next (h : w.Batching cfg) : (w.next cfg).Batching cfg := by
  rw [Worker.next]
  split
  · split <;> exact h.of_eq rfl rfl rfl rfl
  · exact h

lemma Batching.acknowledge (h : w.Batching cfg) (i : ℕ) : (w.acknowledge cfg i).Batching cfg := by
  rw [Worker.acknowledge]
  split
  · exact h
  · split
    · exact h
    · split
      · rw [addStake]
        split_ifs <;> exact h.of_eq rfl rfl rfl rfl
      · exact h

lemma Batching.step (h : w.Batching cfg) (e : Event) : (w.step cfg e).Batching cfg := by
  cases e with
  | transaction t =>
      rw [Worker.step]
      split
      · exact h
      · rename_i hrunning
        exact h.receiveTransaction (by simpa using hrunning) t
  | timer =>
      rw [Worker.step]
      split
      · exact h
      · rename_i hrunning
        exact h.expire (by simpa using hrunning)
  | link name e => exact h.linkStep name e
  | next => exact h.next
  | ack i => exact h.acknowledge i

/-- **No transaction is lost, repeated or moved.** Over any run the batches that were
sealed, followed by the current one, are the transactions in the order in which they
came. No batch is empty, and each is below the preferred size without its last
transaction. -/
theorem transactions_kept (cfg : WorkerConfig) (events : List Event) :
    (run cfg events).sealedBatches.flatten ++ (run cfg events).maker.currentBatch =
        (run cfg events).transactions ∧
      ∀ b ∈ (run cfg events).sealedBatches,
        b ≠ [] ∧ (b.dropLast = [] ∨ bytes b.dropLast < cfg.batchSize) := by
  have hbatching : (run cfg events).Batching cfg := by
    induction events using List.reverseRecOn with
    | nil => exact ⟨rfl, rfl, fun _ => Or.inl rfl, fun _ hb => absurd hb List.not_mem_nil⟩
    | append_singleton events e ih =>
        rw [run_append_singleton]
        exact ih.step e
  exact ⟨hbatching.conserved, hbatching.batches⟩

lemma halted_sealBatch (hbenchmark : cfg.benchmark = true) (hempty : [] ∈ w.maker.currentBatch) :
    (w.sealBatch cfg).halted = true := by
  rw [sealBatch, if_pos ⟨hbenchmark, hempty⟩]

/-- The batch maker has panicked, or has an empty transaction in its current batch. -/
def Stuck (w : Worker) : Prop := w.halted = true ∨ [] ∈ w.maker.currentBatch

/-- What becomes of a stuck batch maker: it makes no batch and stays stuck. -/
structure StaysStuck (w w' : Worker) : Prop where
  stuck : w'.Stuck
  halted : w.halted = true → w'.halted = true
  sealedBatches : w'.sealedBatches = w.sealedBatches

lemma StaysStuck.of_eq {w' : Worker} (h : w.Stuck) (hmaker : w'.maker = w.maker)
    (hhalted : w'.halted = w.halted) (hsealed : w'.sealedBatches = w.sealedBatches) :
    StaysStuck w w' :=
  ⟨by rwa [Stuck, hmaker, hhalted], fun h => hhalted.trans h, hsealed⟩

/-- Sealing a batch with an empty transaction makes no batch. -/
lemma staysStuck_sealBatch (hbenchmark : cfg.benchmark = true)
    (hempty : [] ∈ w.maker.currentBatch) : StaysStuck w (w.sealBatch cfg) := by
  have hhalted := halted_sealBatch hbenchmark hempty
  refine ⟨Or.inl hhalted, fun _ => hhalted, ?_⟩
  rw [sealBatch, if_pos ⟨hbenchmark, hempty⟩]

/-- A transaction that leaves an empty one in the current batch. -/
lemma staysStuck_receiveTransaction (hbenchmark : cfg.benchmark = true) {t : Transaction}
    (hempty : [] ∈ (w.push t).maker.currentBatch) :
    StaysStuck w (w.receiveTransaction cfg t) := by
  rw [receiveTransaction]
  split
  · have hsealed := staysStuck_sealBatch hbenchmark hempty
    exact ⟨hsealed.stuck, hsealed.halted, hsealed.sealedBatches⟩
  · exact ⟨Or.inr hempty, fun h => h, rfl⟩

/-- **A stuck batch maker stays stuck**, whatever happens. -/
lemma Stuck.step (hbenchmark : cfg.benchmark = true) (h : w.Stuck) (e : Event) :
    StaysStuck w (w.step cfg e) := by
  have hsame : StaysStuck w w := ⟨h, fun h => h, rfl⟩
  cases e with
  | transaction t =>
      rw [Worker.step]
      split
      · exact hsame
      · rename_i hrunning
        exact staysStuck_receiveTransaction hbenchmark
          (List.mem_append_left _ (h.resolve_left hrunning))
  | timer =>
      rw [Worker.step]
      split
      · exact hsame
      · rename_i hrunning
        -- the batch with the empty transaction is sealed now, which panics
        have hempty := h.resolve_left hrunning
        rw [expire, if_neg (List.ne_nil_of_mem hempty)]
        exact staysStuck_sealBatch hbenchmark hempty
  | link name e => cases e <;> exact .of_eq h rfl rfl rfl
  | next =>
      rw [Worker.step, Worker.next]
      split
      · split <;> exact .of_eq h rfl rfl rfl
      · exact hsame
  | ack i =>
      rw [Worker.step, Worker.acknowledge]
      split
      · exact hsame
      · split
        · exact hsame
        · split
          · rw [addStake]
            split_ifs <;> exact .of_eq h rfl rfl rfl
          · exact hsame

/-- A stuck batch maker panics when its timer expires. -/
lemma Stuck.halted_timer (hbenchmark : cfg.benchmark = true) (h : w.Stuck) :
    (w.step cfg .timer).halted = true := by
  rw [Worker.step]
  split
  · assumption
  · rename_i hrunning
    have hempty := h.resolve_left hrunning
    rw [expire, if_neg (List.ne_nil_of_mem hempty)]
    exact halted_sealBatch hbenchmark hempty

/-- An empty transaction gets the batch maker stuck. -/
lemma staysStuck_empty (hbenchmark : cfg.benchmark = true) (w : Worker) :
    StaysStuck w (w.step cfg (.transaction [])) := by
  rw [step]
  split
  · rename_i hhalted
    exact ⟨Or.inl hhalted, fun h => h, rfl⟩
  · exact staysStuck_receiveTransaction hbenchmark
      (List.mem_append_right _ (List.mem_singleton_self _))

/-- **An empty transaction stops the batch maker** if it was built with the feature
`benchmark`: whatever happens before and after it, no batch is sealed from then on, and
the task has panicked once the timer has expired. -/
theorem empty_transaction_halts (cfg : WorkerConfig) (hbenchmark : cfg.benchmark = true)
    (before after : List Event) :
    (run cfg (before ++ .transaction [] :: after)).sealedBatches =
        (run cfg before).sealedBatches ∧
      (.timer ∈ after → (run cfg (before ++ .transaction [] :: after)).halted = true) := by
  have hstuck : StaysStuck (run cfg before) (run cfg (before ++ .transaction [] :: after)) ∧
      (.timer ∈ after → (run cfg (before ++ .transaction [] :: after)).halted = true) := by
    -- from the empty transaction on the maker is stuck, and the first timer finds it so
    induction after using List.reverseRecOn with
    | nil =>
        rw [run_append_singleton]
        exact ⟨staysStuck_empty hbenchmark _, fun h => absurd h List.not_mem_nil⟩
    | append_singleton after e ih =>
        obtain ⟨hstays, htimer⟩ := ih
        rw [← List.cons_append, ← List.append_assoc, run_append_singleton]
        have hstep := hstays.stuck.step hbenchmark e
        refine ⟨⟨hstep.stuck, fun h => hstep.halted (hstays.halted h),
          hstep.sealedBatches.trans hstays.sealedBatches⟩, fun hmem => ?_⟩
        rcases List.mem_append.mp hmem with hmem | hmem
        · exact hstep.halted (htimer hmem)
        · rw [← List.mem_singleton.mp hmem]
          exact hstays.stuck.halted_timer hbenchmark
  exact ⟨hstuck.1.sealedBatches, hstuck.2⟩

lemma fourWorkers_sorted :
    (([(0, 1), (1, 1), (2, 1), (3, 1)] : List (ℕ × ℕ)).map Prod.fst).Pairwise (· < ·) := by
  decide

/-- The worker of the first of four authorities of one vote each. -/
def fourWorkers : WorkerConfig where
  committee := ⟨[(0, 1), (1, 1), (2, 1), (3, 1)], fourWorkers_sorted⟩
  workers := fun _ => [0]
  name := 0
  id := 0
  batchSize := 2
  benchmark := true

/-- Between the empty transaction and the timer comes another transaction. -/
theorem empty_transaction_halts_fourWorkers :
    (run fourWorkers [.transaction [], .next, .transaction [1]]).halted = false ∧
      (run fourWorkers [.transaction [], .next, .transaction [1], .timer]).halted = true :=
  ⟨by decide, (empty_transaction_halts fourWorkers rfl []
    [.next, .transaction [1], .timer]).2 (by simp)⟩

end Worker

end StablecoinSystem.Dissemination
