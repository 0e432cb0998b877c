import StablecoinSystem.Primary.HeaderWaiter
import StablecoinSystem.Worker.Batches

/-!
The retrieval of missing batches (`worker/src/synchronizer.rs`, `worker/src/helper.rs`,
`worker/src/processor.rs`, `primary/src/payload_receiver.rs`, and the requests of
`primary/src/header_waiter.rs`).

All authorities are honest here: each header lists batches that workers of its author
have made and stored. The network may lose, delay, repeat and reorder what is sent,
since a message that was sent can be handled at any time, any number of times or never.
A batch is sent to other workers by its maker, and by the helpers in reply to requests.

A primary that lacks a batch of a header sends its request to a worker of the author of
the header (`HeaderWaiter.requestBatches`) and not to its own. That worker has the
batch, and if it asks for it, the batch is sent to it.

* `Network.Inv`: every batch that is stored, sent, asked for or reported is traced to
  its maker;
* `fetches_nothing`: no worker ever obtains a batch except from its maker.
-/

namespace StablecoinSystem.Synchronization

open Dissemination (Batch)
open Primary Storage

/-- The committee, the workers of each authority, the settings and the hash of batches. -/
structure SyncConfig where
  committee : Committee
  workers : ℕ → List ℕ
  gcDepth : ℕ
  syncRetryDelay : ℕ
  digest : Batch → ℕ

/-- Whether `Committee::worker` finds a worker. -/
def SyncConfig.hasWorker (cfg : SyncConfig) (name id : ℕ) : Bool :=
  name ∈ cfg.committee.keys ∧ id ∈ cfg.workers name

/-- A worker: its store and its `Synchronizer`, whose pending digests come with the round
and the time of the request. -/
structure SyncWorker where
  store : Store ℕ Batch
  round : ℕ
  pending : List (ℕ × ℕ × ℕ)

namespace SyncWorker

/-- The loop over the digests of a `Synchronize`: the worker after it, and the digests
that are not stored. -/
def lookFor (now : ℕ) : SyncWorker → List ℕ → SyncWorker × List ℕ
  | w, [] => (w, [])
  | w, d :: digests =>
      if d ∈ w.pending.map Prod.fst then lookFor now w digests
      else
        let rest := lookFor now { w with pending := (d, w.round, now) :: w.pending } digests
        (rest.1, if (w.store d).isNone then d :: rest.2 else rest.2)

/-- What the loop changes: the digests it comes across are pending afterwards. -/
lemma lookFor_spec (now : ℕ) (w : SyncWorker) (digests : List ℕ) :
    (lookFor now w digests).1.store = w.store ∧
      (∀ p ∈ (lookFor now w digests).1.pending, p ∈ w.pending ∨ p.1 ∈ digests) ∧
      ∀ d ∈ (lookFor now w digests).2, d ∈ digests := by
  induction digests generalizing w with
  | nil => exact ⟨rfl, fun p hp => Or.inl hp, fun d hd => hd⟩
  | cons d digests ih =>
      rw [lookFor]
      split
      · obtain ⟨hstore, hpending, hmissing⟩ := ih w
        exact ⟨hstore, fun p hp => (hpending p hp).imp_right (List.mem_cons_of_mem d),
          fun x hx => List.mem_cons_of_mem d (hmissing x hx)⟩
      · obtain ⟨hstore, hpending, hmissing⟩ :=
          ih { w with pending := (d, w.round, now) :: w.pending }
        refine ⟨hstore, fun p hp => ?_, fun x hx => ?_⟩
        · rcases hpending p hp with hold | hnew
          · rcases List.mem_cons.mp hold with rfl | hold
            · exact Or.inr (List.mem_cons_self ..)
            · exact Or.inl hold
          · exact Or.inr (List.mem_cons_of_mem d hnew)
        · dsimp only at hx
          split at hx
          · exact (List.mem_cons.mp hx).elim (fun hxd => hxd ▸ List.mem_cons_self ..)
              fun hx => List.mem_cons_of_mem d (hmissing x hx)
          · exact List.mem_cons_of_mem d (hmissing x hx)

/-- `Cleanup`. -/
def cleanup (gcDepth : ℕ) (w : SyncWorker) (round : ℕ) : SyncWorker :=
  if round < gcDepth then { w with round := round }
  else { w with round := round, pending := w.pending.filter fun p => round - gcDepth < p.2.1 }

/-- A batch has come: the waiter for its digest returns. -/
def arrived (w : SyncWorker) (d : ℕ) : SyncWorker :=
  if (w.store d).isSome then { w with pending := w.pending.filter fun p => p.1 ≠ d } else w

/-- The digests that have been asked for and have not come in time. -/
def overdue (syncRetryDelay : ℕ) (w : SyncWorker) (now : ℕ) : List ℕ :=
  (w.pending.filter fun p => p.2.2 + syncRetryDelay < now).map Prod.fst

/-- Store a batch. -/
def insert (w : SyncWorker) (d : ℕ) (b : Batch) : SyncWorker :=
  { w with store := w.store.insert d b }

lemma store_insert (w : SyncWorker) (d d' : ℕ) (b : Batch) :
    (w.insert d b).store d' = if d' = d then some b else w.store d' :=
  Store.insert_apply w.store d d' b

/-- The replies of the `Helper`. -/
def batchesFor (w : SyncWorker) (digests : List ℕ) : List Batch := digests.filterMap w.store

end SyncWorker

/-- What workers send: batches and requests to the workers of other authorities, and the
digests of others' batches to the primary of their own. -/
inductive Message where
  | batch (authority worker : ℕ) (b : Batch)
  | batchRequest (authority worker : ℕ) (digests : List ℕ) (requestor : ℕ)
  | othersBatch (authority digest worker : ℕ)

/-- All authorities. `messages` is what workers have sent, the requests of primaries are in
their waiters. `made` are the batches that workers have reported to their own primary, and
`direct` those that came to a worker from their maker, or were sent to it. -/
structure Network where
  waiters : ℕ → HeaderWaiter Unit
  workers : ℕ × ℕ → SyncWorker
  messages : List Message
  made : List (ℕ × ℕ × ℕ)
  direct : List (ℕ × ℕ × ℕ)

/-- What can happen. -/
inductive Event where
  | broadcast (worker : ℕ) (b : Batch) (peers : List ℕ)
  | process (authority worker : ℕ) (b : Batch)
  | waiter (authority : ℕ) (e : WaiterEvent Unit)
  | synchronize (authority i now : ℕ)
  | deliver (i : ℕ)
  | arrived (authority worker digest : ℕ)
  | timer (authority worker now : ℕ) (chosen : List ℕ)
  | cleanup (authority worker round : ℕ)

namespace Network

variable (cfg : SyncConfig) (s : Network)

/-- The network at the start. -/
def start : Network where
  waiters name := HeaderWaiter.spawn name cfg.gcDepth cfg.syncRetryDelay
  workers _ := ⟨Store.empty, 0, []⟩
  messages := []
  made := []
  direct := []

/-- A worker changes. -/
def setWorker (authority worker : ℕ) (w : SyncWorker) : Network :=
  { s with workers := Function.update s.workers (authority, worker) w }

lemma workers_setWorker_self (authority worker : ℕ) (w : SyncWorker) :
    (s.setWorker authority worker w).workers (authority, worker) = w :=
  Function.update_self ..

lemma workers_setWorker_of_ne {authority worker authority' worker' : ℕ} (w : SyncWorker)
    (h : (authority', worker') ≠ (authority, worker)) :
    (s.setWorker authority worker w).workers (authority', worker') =
      s.workers (authority', worker') :=
  Function.update_of_ne h ..

/-- The `Processor` stores a batch. -/
def storeBatch (authority worker : ℕ) (b : Batch) : Network :=
  s.setWorker authority worker ((s.workers (authority, worker)).insert (cfg.digest b) b)

/-- Messages are sent. -/
def send (messages : List Message) : Network := { s with messages := s.messages ++ messages }

/-- The batch maker of a worker sends a batch to others of the same id. -/
def broadcast (worker : ℕ) (b : Batch) (peers : List ℕ) : Network :=
  { s with direct := peers.map (fun peer => (peer, worker, cfg.digest b)) ++ s.direct }.send
    (peers.map fun peer => .batch peer worker b)

/-- The processor for the worker's own batches: the digest goes to the primary. -/
def process (authority worker : ℕ) (b : Batch) : Network :=
  { { s with direct := (authority, worker, cfg.digest b) :: s.direct }.storeBatch cfg
      authority worker b with
    made := (authority, worker, cfg.digest b) :: s.made }

/-- What can wake a waiter. The core hands over a header of another authority with the
batches that `missing_payload` has found to be missing. It read the store before that, so
some of them may have come in the meantime; what it found is still there. Only the
`PayloadReceiver` writes the keys of batches. -/
def allowed (authority : ℕ) : WaiterEvent Unit → Bool
  | .receive (.syncBatches missing h) _ _ =>
      h.author ≠ authority ∧ (∀ entry ∈ h.payload, (h.author, entry.2, entry.1) ∈ s.made) ∧
        missing ≠ [] ∧ (∀ entry ∈ missing, h.payload.contains entry) ∧
        ∀ entry ∈ h.payload, missing.contains entry ∨
          ((s.waiters authority).db (.payload entry.1 entry.2)).isSome
  | .command (.write (.payload _ _) _) => false
  | _ => true

/-- A waiter takes a step. -/
def stepWaiter (authority : ℕ) (e : WaiterEvent Unit) : Network :=
  { s with waiters := Function.update s.waiters authority ((s.waiters authority).step e) }

lemma waiters_stepWaiter_self (authority : ℕ) (e : WaiterEvent Unit) :
    (s.stepWaiter authority e).waiters authority = (s.waiters authority).step e :=
  Function.update_self ..

lemma waiters_stepWaiter_of_ne {authority authority' : ℕ} (e : WaiterEvent Unit)
    (h : authority' ≠ authority) :
    (s.stepWaiter authority e).waiters authority' = s.waiters authority' :=
  Function.update_of_ne h ..

/-- A worker handles a `Synchronize`, and asks the target for what it lacks. -/
def synchronize (authority worker now : ℕ) (digests : List ℕ) (target : ℕ) : Network :=
  (s.setWorker authority worker ((s.workers (authority, worker)).lookFor now digests).1).send
    (if cfg.hasWorker target worker then
      [.batchRequest target worker ((s.workers (authority, worker)).lookFor now digests).2
        authority]
    else [])

/-- A worker or a primary handles a message. -/
def handle : Message → Network
  | .batch authority worker b =>
      (s.storeBatch cfg authority worker b).send [.othersBatch authority (cfg.digest b) worker]
  | .batchRequest authority worker digests requestor =>
      s.send
        (if cfg.hasWorker requestor worker then
          ((s.workers (authority, worker)).batchesFor digests).map (.batch requestor worker)
        else [])
  | .othersBatch authority digest worker =>
      s.stepWaiter authority (.command (.write (.payload digest worker) ()))

/-- One step. -/
def step : Event → Network
  | .broadcast worker b peers => s.broadcast cfg worker b peers
  | .process authority worker b => s.process cfg authority worker b
  | .waiter authority e => if s.allowed authority e then s.stepWaiter authority e else s
  | .synchronize authority i now =>
      match (s.waiters authority).requests[i]? with
      | some (.synchronize addressee worker digests target) =>
          s.synchronize cfg addressee worker now digests target
      | _ => s
  | .deliver i =>
      match s.messages[i]? with
      | some m => s.handle cfg m
      | none => s
  | .arrived authority worker digest =>
      s.setWorker authority worker ((s.workers (authority, worker)).arrived digest)
  | .timer authority worker now chosen =>
      s.send (if (s.workers (authority, worker)).overdue cfg.syncRetryDelay now = [] then []
        else chosen.map fun peer => .batchRequest peer worker
          ((s.workers (authority, worker)).overdue cfg.syncRetryDelay now) authority)
  | .cleanup authority worker round =>
      s.setWorker authority worker ((s.workers (authority, worker)).cleanup cfg.gcDepth round)

/-- The network after some steps. -/
def run (events : List Event) : Network := events.foldl (step cfg) (start cfg)

/-! ### Every batch comes from its maker -/

/-- What a request of a primary says about its digests. -/
def RequestFor (made : List (ℕ × ℕ × ℕ)) : WaiterRequest → Prop
  | .synchronize authority worker digests _ => ∀ d ∈ digests, (authority, worker, d) ∈ made
  | .certificatesRequest _ _ _ => True

/-- What a message says about its batches. -/
def MessageFor (cfg : SyncConfig) (direct : List (ℕ × ℕ × ℕ)) : Message → Prop
  | .batch authority worker b => (authority, worker, cfg.digest b) ∈ direct
  | .batchRequest _ worker digests requestor => ∀ d ∈ digests, (requestor, worker, d) ∈ direct
  | .othersBatch authority digest worker => (authority, worker, digest) ∈ direct

/-- What is stored at a worker and pending in its synchronizer. -/
structure WorkerFor (cfg : SyncConfig) (made direct : List (ℕ × ℕ × ℕ)) (authority worker : ℕ)
    (w : SyncWorker) : Prop where
  own : ∀ d, (authority, worker, d) ∈ made → (w.store d).isSome
  stored : ∀ d b, w.store d = some b → cfg.digest b = d ∧ (authority, worker, d) ∈ direct
  pending : ∀ p ∈ w.pending, (authority, worker, p.1) ∈ made

/-- Everything is traced to the maker of a batch. -/
structure Inv (cfg : SyncConfig) (s : Network) : Prop where
  made : ∀ x ∈ s.made, x ∈ s.direct
  workers : ∀ authority worker,
    WorkerFor cfg s.made s.direct authority worker (s.workers (authority, worker))
  requests : ∀ authority, ∀ r ∈ (s.waiters authority).requests, RequestFor s.made r
  messages : ∀ m ∈ s.messages, MessageFor cfg s.direct m
  payload : ∀ authority d worker, ((s.waiters authority).db (.payload d worker)).isSome →
    (authority, worker, d) ∈ s.direct
  runs : ∀ authority, ∃ events, s.waiters authority =
    HeaderWaiter.run authority cfg.gcDepth cfg.syncRetryDelay events

variable {cfg s}

lemma MessageFor.mono {direct direct' : List (ℕ × ℕ × ℕ)} (hsub : direct ⊆ direct') {m : Message}
    (h : MessageFor cfg direct m) : MessageFor cfg direct' m := by
  cases m with
  | batch authority worker b => exact hsub h
  | batchRequest authority worker digests requestor => exact fun d hd => hsub (h d hd)
  | othersBatch authority digest worker => exact hsub h

lemma RequestFor.mono {made made' : List (ℕ × ℕ × ℕ)} (hsub : made ⊆ made') {r : WaiterRequest}
    (h : RequestFor made r) : RequestFor made' r := by
  cases r with
  | synchronize authority worker digests target => exact fun d hd => hsub (h d hd)
  | certificatesRequest authority digests requestor => trivial

namespace Inv

lemma start (cfg : SyncConfig) : Inv cfg (Network.start cfg) where
  made _ h := absurd h List.not_mem_nil
  workers _ _ :=
    ⟨fun _ h => absurd h List.not_mem_nil, fun _ _ h => (by cases h),
      fun _ h => absurd h List.not_mem_nil⟩
  requests _ _ h := absurd h List.not_mem_nil
  messages _ h := absurd h List.not_mem_nil
  payload _ _ _ h := by cases h
  runs _ := ⟨[], rfl⟩

lemma addDirect (h : s.Inv cfg) (more : List (ℕ × ℕ × ℕ)) :
    Inv cfg { s with direct := more ++ s.direct } := by
  have hsub : s.direct ⊆ more ++ s.direct := List.subset_append_right more s.direct
  exact
    { h with
      made := fun x hx => hsub (h.made x hx)
      workers := fun authority worker =>
        { h.workers authority worker with
          stored := fun d b hb => ((h.workers authority worker).stored d b hb).imp_right (hsub ·) }
      messages := fun m hm => (h.messages m hm).mono hsub
      payload := fun authority d worker hd => hsub (h.payload authority d worker hd) }

lemma send (h : s.Inv cfg) {messages : List Message}
    (hmessages : ∀ m ∈ messages, MessageFor cfg s.direct m) : Inv cfg (s.send messages) :=
  { h with messages := List.forall_mem_append.mpr ⟨h.messages, hmessages⟩ }

lemma setWorker (h : s.Inv cfg) {authority worker : ℕ} {w : SyncWorker}
    (hw : WorkerFor cfg s.made s.direct authority worker w) :
    Inv cfg (s.setWorker authority worker w) :=
  { h with
    workers := fun authority' worker' => by
      by_cases heq : (authority', worker') = (authority, worker)
      · obtain ⟨rfl, rfl⟩ := Prod.mk.inj heq
        rw [workers_setWorker_self]
        exact hw
      · rw [workers_setWorker_of_ne s w heq]
        exact h.workers authority' worker' }

lemma storeBatch (h : s.Inv cfg) {authority worker : ℕ} {b : Batch}
    (hb : (authority, worker, cfg.digest b) ∈ s.direct) :
    Inv cfg (s.storeBatch cfg authority worker b) := by
  have hw := h.workers authority worker
  refine h.setWorker ⟨fun d hd => ?_, fun d b' hb' => ?_, hw.pending⟩
  · rw [SyncWorker.store_insert]
    split
    · rfl
    · exact hw.own d hd
  · rw [SyncWorker.store_insert] at hb'
    split at hb'
    · obtain rfl := Option.some.inj hb'
      rename_i hd
      rw [hd]
      exact ⟨rfl, hb⟩
    · exact hw.stored d b' hb'

lemma make (h : s.Inv cfg) {authority worker d : ℕ}
    (hstored : ((s.workers (authority, worker)).store d).isSome)
    (hdirect : (authority, worker, d) ∈ s.direct) :
    Inv cfg { s with made := (authority, worker, d) :: s.made } :=
  { h with
    made := List.forall_mem_cons.mpr ⟨hdirect, h.made⟩
    workers := fun authority' worker' =>
      { h.workers authority' worker' with
        own := fun d' hd' => by
          rcases List.mem_cons.mp hd' with heq | hd'
          · obtain ⟨rfl, rfl, rfl⟩ := by simpa using heq
            exact hstored
          · exact (h.workers authority' worker').own d' hd'
        pending := fun p hp =>
          List.mem_cons_of_mem _ ((h.workers authority' worker').pending p hp) }
    requests := fun authority' r hr =>
      (h.requests authority' r hr).mono (List.subset_cons_self _ _) }

lemma process (h : s.Inv cfg) (authority worker : ℕ) (b : Batch) :
    Inv cfg (s.process cfg authority worker b) := by
  have hdirect := h.addDirect [(authority, worker, cfg.digest b)]
  refine (hdirect.storeBatch (List.mem_cons_self ..)).make ?_ (List.mem_cons_self ..)
  rw [Network.storeBatch, workers_setWorker_self, SyncWorker.store_insert, if_pos rfl]
  rfl

lemma broadcast (h : s.Inv cfg) (worker : ℕ) (b : Batch) (peers : List ℕ) :
    Inv cfg (s.broadcast cfg worker b peers) := by
  refine (h.addDirect _).send fun m hm => ?_
  obtain ⟨peer, hpeer, rfl⟩ := List.mem_map.mp hm
  exact List.mem_append_left _ (List.mem_map.mpr ⟨peer, hpeer, rfl⟩)

/-- A waiter takes a step that keeps to what is known. -/
lemma stepWaiter (h : s.Inv cfg) {authority : ℕ} {e : WaiterEvent Unit}
    (hrequests : ∀ missing header now round, e = .receive (.syncBatches missing header) now round →
      ∀ entry ∈ missing, (header.author, entry.2, entry.1) ∈ s.made)
    (hpayload : ∀ d worker value, e = .command (.write (.payload d worker) value) →
      (authority, worker, d) ∈ s.direct) :
    Inv cfg (s.stepWaiter authority e) :=
  { h with
    requests := fun authority' r hr => by
      by_cases heq : authority' = authority
      · subst heq
        rw [waiters_stepWaiter_self] at hr
        -- a request is old, for certificates, or for batches of the message just received
        rcases HeaderWaiter.requests_step hr with hold | ⟨_, _, _, rfl⟩ |
          ⟨missing, header, now, round, worker, digests, rfl, rfl, hdigests⟩
        · exact h.requests authority' r hold
        · trivial
        · exact fun d hd => hrequests missing header now round rfl (d, worker) (hdigests d hd)
      · rw [waiters_stepWaiter_of_ne s e heq] at hr
        exact h.requests authority' r hr
    payload := fun authority' d worker hd => by
      by_cases heq : authority' = authority
      · subst heq
        rw [waiters_stepWaiter_self] at hd
        rcases HeaderWaiter.isSome_db_step hd with hold | ⟨value, rfl⟩
        · exact h.payload authority' d worker hold
        · exact hpayload d worker value rfl
      · rw [waiters_stepWaiter_of_ne s e heq] at hd
        exact h.payload authority' d worker hd
    runs := fun authority' => by
      by_cases heq : authority' = authority
      · subst heq
        obtain ⟨events, hevents⟩ := h.runs authority'
        refine ⟨events ++ [e], ?_⟩
        rw [waiters_stepWaiter_self, hevents, HeaderWaiter.run, HeaderWaiter.run,
          List.foldl_append]
        rfl
      · rw [waiters_stepWaiter_of_ne s e heq]
        exact h.runs authority' }

lemma waiter (h : s.Inv cfg) {authority : ℕ} {e : WaiterEvent Unit}
    (hallowed : s.allowed authority e) : Inv cfg (s.stepWaiter authority e) := by
  refine h.stepWaiter ?_ ?_
  · rintro missing header now round rfl entry hentry
    obtain ⟨-, hmade, -, hmissing, -⟩ : _ ∧ _ ∧ _ ∧ _ ∧ _ := by
      simpa only [allowed, decide_eq_true_eq] using hallowed
    exact hmade entry (List.contains_iff_mem.mp (hmissing entry hentry))
  · rintro d worker value rfl
    cases hallowed

lemma synchronize (h : s.Inv cfg) {authority worker target : ℕ} {digests : List ℕ} (now : ℕ)
    (hdigests : ∀ d ∈ digests, (authority, worker, d) ∈ s.made) :
    Inv cfg (s.synchronize cfg authority worker now digests target) := by
  obtain ⟨hstore, hpending, hmissing⟩ :=
    SyncWorker.lookFor_spec now (s.workers (authority, worker)) digests
  have hw := h.workers authority worker
  have hset : Inv cfg (s.setWorker authority worker
      ((s.workers (authority, worker)).lookFor now digests).1) := by
    refine h.setWorker ⟨?_, ?_, fun p hp => ?_⟩
    · rw [hstore]
      exact hw.own
    · rw [hstore]
      exact hw.stored
    · exact (hpending p hp).elim (hw.pending p) (hdigests p.1)
  refine hset.send fun m hm => ?_
  split at hm
  · obtain rfl := List.mem_singleton.mp hm
    exact fun d hd => h.made _ (hdigests d (hmissing d hd))
  · exact absurd hm List.not_mem_nil

lemma handle (h : s.Inv cfg) {m : Message} (hm : MessageFor cfg s.direct m) :
    Inv cfg (s.handle cfg m) := by
  cases m with
  | batch authority worker b =>
      exact (h.storeBatch hm).send (List.forall_mem_singleton.mpr hm)
  | batchRequest authority worker digests requestor =>
      refine h.send fun m' hm' => ?_
      split at hm'
      · obtain ⟨b, hb, rfl⟩ := List.mem_map.mp hm'
        obtain ⟨d, hd, hstored⟩ := List.mem_filterMap.mp hb
        have hdigest := ((h.workers authority worker).stored d b hstored).1
        rw [MessageFor, hdigest]
        exact hm d hd
      · exact absurd hm' List.not_mem_nil
  | othersBatch authority digest worker =>
      refine h.stepWaiter (fun _ _ _ _ he => by cases he) fun d worker' value he => ?_
      cases he
      exact hm

lemma step (h : s.Inv cfg) (e : Event) : Inv cfg (s.step cfg e) := by
  cases e with
  | broadcast worker b peers => exact h.broadcast worker b peers
  | process authority worker b => exact h.process authority worker b
  | waiter authority e =>
      rw [Network.step]
      split
      · rename_i hallowed
        exact h.waiter hallowed
      · exact h
  | synchronize authority i now =>
      rw [Network.step]
      split
      · rename_i hrequest
        exact h.synchronize now (h.requests authority _ (List.mem_of_getElem? hrequest))
      · exact h
  | deliver i =>
      rw [Network.step]
      split
      · rename_i hmessage
        exact h.handle (h.messages _ (List.mem_of_getElem? hmessage))
      · exact h
  | arrived authority worker digest =>
      have hw := h.workers authority worker
      rw [Network.step, SyncWorker.arrived]
      split
      · exact h.setWorker
          { hw with pending := fun p hp => hw.pending p (List.mem_of_mem_filter hp) }
      · exact h.setWorker hw
  | timer authority worker now chosen =>
      refine h.send fun m hm => ?_
      split at hm
      · exact absurd hm List.not_mem_nil
      · obtain ⟨peer, -, rfl⟩ := List.mem_map.mp hm
        intro d hd
        obtain ⟨p, hp, rfl⟩ := List.mem_map.mp hd
        exact h.made _ ((h.workers authority worker).pending p (List.mem_of_mem_filter hp))
  | cleanup authority worker round =>
      have hw := h.workers authority worker
      rw [Network.step, SyncWorker.cleanup]
      split
      · exact h.setWorker { hw with }
      · exact h.setWorker
          { hw with pending := fun p hp => hw.pending p (List.mem_of_mem_filter hp) }

end Inv

lemma inv_run (cfg : SyncConfig) (events : List Event) : Inv cfg (run cfg events) := by
  induction events using List.reverseRecOn with
  | nil => exact Inv.start cfg
  | append_singleton events e ih =>
      rw [run, List.foldl_append]
      exact ih.step e

/-- **Synchronisation fetches nothing.** Over any run of honest authorities, a worker
holds only batches that it has made itself or that their maker has sent to it. A header
that waits for any other batch is not ready: whatever is requested and answered, and
however often, it is not given back to the core. Of a header that was given back, all the
batches it was waiting for came from their maker. -/
theorem fetches_nothing (cfg : SyncConfig) (events : List Event) :
    (∀ authority worker d,
        (((run cfg events).workers (authority, worker)).store d).isSome →
          (authority, worker, d) ∈ (run cfg events).direct) ∧
      (∀ authority, ∀ f ∈ ((run cfg events).waiters authority).waiting, ∀ d worker,
        .payload d worker ∈ f.keys → (authority, worker, d) ∉ (run cfg events).direct →
          ((run cfg events).waiters authority).isReady f = false) ∧
      ∀ authority, ∀ f ∈ ((run cfg events).waiters authority).delivered, ∀ d worker,
        .payload d worker ∈ f.keys → (authority, worker, d) ∈ (run cfg events).direct := by
  have h := inv_run cfg events
  -- each waiter has made a run of its own, of which the invariant of waiters speaks
  have hwaiter : ∀ authority, ∃ messages, HeaderWaiter.Inv messages
      ((run cfg events).waiters authority).waiting ((run cfg events).waiters authority).commands
      ((run cfg events).waiters authority).delivered := by
    intro authority
    obtain ⟨past, hpast⟩ := h.runs authority
    rw [hpast]
    exact ⟨_, HeaderWaiter.inv_run _ _ _ past⟩
  refine ⟨fun authority worker d hd => ?_, fun authority f hf d worker hkey hdirect => ?_,
    fun authority f hf d worker hkey => ?_⟩
  · obtain ⟨b, hb⟩ := Option.isSome_iff_exists.mp hd
    exact ((h.workers authority worker).stored d b hb).2
  -- a batch that never came from its maker is not stored, so its key keeps the future back
  · obtain ⟨messages, hinv⟩ := hwaiter authority
    rw [Bool.eq_false_iff, ne_eq, HeaderWaiter.isReady_iff (hinv.issued f hf)]
    exact fun hready => hdirect (h.payload authority d worker (hready.2 _ hkey))
  · obtain ⟨messages, hinv⟩ := hwaiter authority
    exact h.payload authority d worker (hinv.complete f hf _ hkey)

lemma twoAuthorities_sorted :
    (([(0, 1), (1, 1)] : List (ℕ × ℕ)).map Prod.fst).Pairwise (· < ·) := by
  decide

/-- Two authorities with one worker each. -/
def twoAuthorities : SyncConfig where
  committee := ⟨[(0, 1), (1, 1)], twoAuthorities_sorted⟩
  workers _ := [0]
  gcDepth := 50
  syncRetryDelay := 5
  digest := List.length

lemma missed_sorted : (([(1, 0)] : List (ℕ × ℕ)).map Prod.fst).Pairwise (· < ·) := by
  decide

lemma missed_parentless : ([] : List ℕ).Pairwise (· < ·) := List.Pairwise.nil

/-- A header of the first authority. -/
def missed : Header := ⟨0, 1, [(1, 0)], [], 5, 0, missed_sorted, missed_parentless⟩

/-- The second authority lacks the batch of the header. Its request goes to the worker of
the first, which has the batch, asks itself for nothing and later asks the second for the
batch. -/
def missedBatch : List Event :=
  [.process 0 0 [[7]], .waiter 1 (.receive (.syncBatches [(1, 0)] missed) 0 1),
    .waiter 1 (.poll 0), .synchronize 1 0 0, .deliver 0, .timer 0 0 10 [1], .deliver 1, .deliver 2]

theorem fetches_nothing_missedBatch :
    ((run twoAuthorities missedBatch).waiters 1).waiting.map (fun f => f.header.id) = [5] ∧
      ∀ f ∈ ((run twoAuthorities missedBatch).waiters 1).waiting,
        ((run twoAuthorities missedBatch).waiters 1).isReady f = false := by
  refine ⟨by decide, fun f hf => ?_⟩
  have hkey : ∀ f ∈ ((run twoAuthorities missedBatch).waiters 1).waiting,
      StoreKey.payload 1 0 ∈ f.keys := by decide
  exact (fetches_nothing twoAuthorities missedBatch).2.1 1 f hf 1 0 (hkey f hf) (by decide)

end Network

end StablecoinSystem.Synchronization
