import StablecoinSystem.Worker.Batches

/-!
What a worker gives to its processor has been received by a quorum.

* `exists_link_steps`: the tasks act on the links by steps of the links;
* `Worker.Inv`: who has acknowledged the batch that the quorum waiter is at;
* `batches_available`: a batch that reaches the processor is held by honest authorities
  of a third of the stake;
* `batches_in_order`: the processor is given the batches in the order in which they were
  sealed, and none is left out if all authorities have such a worker;
* `lone_worker`: a worker without others never gives a batch to its processor.
-/

namespace StablecoinSystem.Dissemination

open ReliableSender (InnerMessage Link)
open ReliableSender.Link (Kept Answered Evolves)

namespace Worker

variable {cfg : WorkerConfig} {w : Worker} {Honest : ℕ → Prop} {name : ℕ}

/-! ### The links -/

lemma evolves_cancels {honest : Prop} (l : Link Batch) (handlers : List (ℕ × ℕ)) :
    Evolves honest l (handlers.foldl (fun l entry => l.step (.cancel entry.2)) l) := by
  induction handlers generalizing l with
  | nil => exact Evolves.refl l
  | cons entry handlers ih => exact (Evolves.step fun _ => by simp).trans (ih _)

lemma evolves_sealBatch {honest : Prop} (cfg : WorkerConfig) (w : Worker) (name : ℕ) :
    Evolves honest (w.links name) ((w.sealBatch cfg).links name) := by
  rw [sealBatch]
  split_ifs
  · exact Evolves.refl _
  · simp only
    split
    · exact Evolves.step fun _ => by simp
    · exact Evolves.refl _

lemma evolves_linkStep {honest : Prop} (w : Worker) (other : ℕ)
    {e : ReliableSender.Event Batch} (he : honest → other = name → e ≠ .forge) :
    Evolves honest (w.links name) ((w.linkStep other e).links name) := by
  have hupdate : Evolves honest (w.links name)
      (Function.update w.links other ((w.links other).step e) name) := by
    by_cases hother : name = other
    · subst hother
      rw [Function.update_self]
      exact Evolves.step fun h => he h rfl
    · rw [Function.update_of_ne hother]
      exact Evolves.refl _
  cases e with
  | submit data | cancel handler => exact Evolves.refl _
  | connect _ | timer | receive | write _ | response _ | deliver | straggle _ | forge =>
      exact hupdate

/-- The tasks act on the links by steps of the links. -/
lemma evolves_step (cfg : WorkerConfig) (w : Worker) (e : Event)
    (he : Honest name → e ≠ .link name .forge) :
    Evolves (Honest name) (w.links name) ((w.step cfg e).links name) := by
  cases e with
  | transaction t =>
      rw [step, receiveTransaction]
      split_ifs
      · exact Evolves.refl _
      · exact evolves_sealBatch cfg (w.push t) name
      · exact Evolves.refl _
  | timer =>
      rw [step, expire]
      split_ifs
      · exact Evolves.refl _
      · exact Evolves.refl _
      · exact evolves_sealBatch cfg w name
  | link other e =>
      -- the only step that an honest peer does not make is the forged answer
      refine evolves_linkStep w other fun h hother hforge => he h ?_
      rw [hother, hforge]
  | next =>
      rw [step, next]
      split
      · split <;> exact Evolves.refl _
      · exact Evolves.refl _
  | ack i =>
      rw [step, acknowledge]
      split
      · exact Evolves.refl _
      · split
        · exact Evolves.refl _
        · split
          · rw [addStake]
            split_ifs
            -- the quorum is reached, and the handlers left over are dropped
            · exact evolves_cancels _ _
            · exact Evolves.refl _
            · exact Evolves.refl _
          · exact Evolves.refl _

/-! ### The invariant -/

/-- The workers of `acked` have acknowledged a batch: the honest ones have received it. -/
def Holds (Honest : ℕ → Prop) (links : ℕ → Link Batch) (batch : Batch) (acked : List ℕ) : Prop :=
  ∀ name ∈ acked, Honest name → ∃ m ∈ (links name).received, m.data = batch

/-- The messages of a batch were submitted with the handlers. -/
def Submitted (links : ℕ → Link Batch) (batch : Batch) (handlers : List (ℕ × ℕ)) : Prop :=
  ∀ entry ∈ handlers, ⟨batch, entry.2⟩ ∈ (links entry.1).submitted

/-- What the quorum waiter has counted for a batch. -/
structure Counted (cfg : WorkerConfig) (Honest : ℕ → Prop) (links : ℕ → Link Batch) (q : Quorum)
    (acked : List ℕ) : Prop where
  all : (acked ++ q.waitForQuorum.map Prod.fst).Perm cfg.othersWorkers
  stake : q.totalStake % 2 ^ 32 =
    (cfg.committee.stake cfg.name + (acked.map cfg.committee.stake).sum) % 2 ^ 32
  holds : Holds Honest links q.batch acked
  submitted : Submitted links q.batch q.waitForQuorum

/-- A batch has been acknowledged by a quorum. -/
structure Available (cfg : WorkerConfig) (Honest : ℕ → Prop) (links : ℕ → Link Batch)
    (batch : Batch) (acked : List ℕ) : Prop where
  others : acked.Subperm cfg.othersWorkers
  quorum : cfg.committee.quorumThreshold ≤
    cfg.committee.stake cfg.name + (acked.map cfg.committee.stake).sum
  holds : Holds Honest links batch acked

/-- **The invariant of a worker.** -/
structure Inv (cfg : WorkerConfig) (Honest : ℕ → Prop) (w : Worker) : Prop where
  kept : ∀ name, Kept (w.links name).connection.kept (w.links name).submitted
    (w.links name).closed
  answered : ∀ name, Honest name → (w.links name).Answered
  messages : ∀ m ∈ w.messages, m.handlers.map Prod.fst = cfg.othersWorkers ∧
    Submitted w.links m.batch m.handlers
  quorum : ∀ q ∈ w.quorum, ∃ acked, Counted cfg Honest w.links q acked
  processor : ∀ b ∈ w.processor, ∃ acked, Available cfg Honest w.links b acked

section Grow

variable {links links' : ℕ → Link Batch} {batch : Batch} {acked : List ℕ}
  (hlinks : ∀ name, Evolves (Honest name) (links name) (links' name))
include hlinks

lemma Holds.mono (h : Holds Honest links batch acked) : Holds Honest links' batch acked := by
  intro name hname hhonest
  obtain ⟨m, hm, hdata⟩ := h name hname hhonest
  exact ⟨m, (hlinks name).grows.2.subset hm, hdata⟩

lemma Submitted.mono {handlers : List (ℕ × ℕ)} (h : Submitted links batch handlers) :
    Submitted links' batch handlers :=
  fun entry hentry => (hlinks entry.1).grows.1.subset (h entry hentry)

end Grow

/-- The links go on. -/
lemma Inv.links (h : w.Inv cfg Honest) {links' : ℕ → Link Batch}
    (hlinks : ∀ name, Evolves (Honest name) (w.links name) (links' name)) :
    { w with links := links' }.Inv cfg Honest where
  kept name := (hlinks name).kept (h.kept name)
  answered name hname := (hlinks name).answered hname (h.answered name hname)
  messages m hm := (h.messages m hm).imp_right (Submitted.mono hlinks)
  quorum q hq := by
    obtain ⟨acked, hcounted⟩ := h.quorum q hq
    exact ⟨acked, { hcounted with
      holds := hcounted.holds.mono hlinks
      submitted := hcounted.submitted.mono hlinks }⟩
  processor b hb := by
    obtain ⟨acked, havailable⟩ := h.processor b hb
    exact ⟨acked, { havailable with holds := havailable.holds.mono hlinks }⟩

/-- A batch is sealed. -/
lemma Inv.sealBatch (h : w.Inv cfg Honest) : (w.sealBatch cfg).Inv cfg Honest := by
  have hlinks := h.links fun name => evolves_sealBatch cfg w name
  rw [Worker.sealBatch] at hlinks ⊢
  split_ifs at hlinks ⊢ with hpanic
  · exact { h with }
  · refine { hlinks with
      messages := List.forall_mem_append.mpr ⟨hlinks.messages,
        List.forall_mem_singleton.mpr ⟨?_, fun entry hentry => ?_⟩⟩ }
    · rw [List.map_map]
      exact List.map_id _
    · obtain ⟨name, hname, rfl⟩ := List.mem_map.mp hentry
      simp only [if_pos hname]
      exact List.mem_append_right _ (List.mem_singleton_self _)

/-- The quorum waiter takes a message. -/
lemma Inv.next (h : w.Inv cfg Honest) : (w.next cfg).Inv cfg Honest := by
  rw [Worker.next]
  split
  · rename_i m rest hquorum hmessages
    have hall := h.messages
    rw [hmessages, List.forall_mem_cons] at hall
    obtain ⟨⟨hnames, hsubmitted⟩, hrest⟩ := hall
    split
    · exact { h with messages := hrest }
    · refine { h with
        messages := hrest
        quorum := fun q hq => ?_ }
      obtain rfl := Option.some.inj hq
      exact ⟨[], by rw [List.nil_append, hnames], rfl,
        fun _ hname => absurd hname List.not_mem_nil, hsubmitted⟩
  · exact h

/-- One more worker has acknowledged the batch. -/
lemma Counted.ack {q : Quorum} {acked : List ℕ} (h : w.Inv cfg Honest)
    (hq : Counted cfg Honest w.links q acked) {i handler : ℕ}
    (hget : q.waitForQuorum[i]? = some (name, handler))
    (hnotified : ∃ m ∈ (w.links name).connection.notified, m.handler = handler) :
    Counted cfg Honest w.links ⟨q.batch, q.waitForQuorum.eraseIdx i,
      (q.totalStake + cfg.committee.stake name) % 2 ^ 32⟩ (acked ++ [name]) where
  all := by
    obtain ⟨hlt, hentry⟩ := List.getElem?_eq_some_iff.mp hget
    have hperm := (List.getElem_cons_eraseIdx_perm hlt).map Prod.fst
    rw [List.map_cons, hentry] at hperm
    rw [List.append_assoc, List.singleton_append]
    exact (hperm.append_left acked).trans hq.all
  stake := by
    rw [List.map_append, List.sum_append, List.map_singleton, List.sum_singleton,
      ← Nat.add_assoc, Nat.mod_mod, Nat.add_mod, hq.stake, ← Nat.add_mod]
  holds := by
    refine List.forall_mem_append.mpr ⟨hq.holds, List.forall_mem_singleton.mpr fun hhonest => ?_⟩
    -- handlers are never given out twice, so the message notified is that of the batch
    obtain ⟨m, hm, rfl⟩ := hnotified
    have hkept := h.kept name
    have hmem := hq.submitted _ (List.mem_of_getElem? hget)
    have hsubmitted : m ∈ (w.links name).submitted :=
      hkept.order.subset (List.mem_append_left _ hm)
    have heq := hkept.eq_of_handler hsubmitted hmem rfl
    exact ⟨m, (h.answered name hhonest).notified m hm, by rw [heq]⟩
  submitted entry hentry := hq.submitted entry (List.mem_of_mem_eraseIdx hentry)

/-- What is counted with an acknowledgement is the sum of the stakes, as `u32`s. -/
lemma Counted.totalStake_ack {q : Quorum} {acked : List ℕ} {rest : List (ℕ × ℕ)} {total : ℕ}
    (hq : Counted cfg Honest w.links ⟨q.batch, rest, total % 2 ^ 32⟩ acked) :
    total % 2 ^ 32 =
      (cfg.committee.stake cfg.name + (acked.map cfg.committee.stake).sum) % 2 ^ 32 :=
  (Nat.mod_mod _ _).symm.trans hq.stake

lemma Inv.acknowledge (h : w.Inv cfg Honest) (i : ℕ) : (w.acknowledge cfg i).Inv cfg Honest := by
  rw [Worker.acknowledge]
  split
  · exact h
  · rename_i q hquorum
    split
    · exact h
    · rename_i name handler hget
      split
      · rename_i hany
        obtain ⟨acked, hcounted⟩ := h.quorum q hquorum
        have hnotified : ∃ m ∈ (w.links name).connection.notified, m.handler = handler := by
          simpa using hany
        have hack := hcounted.ack h hget hnotified
        rw [addStake]
        split_ifs with hreached hempty
        -- a quorum: the batch goes to the processor, whoever has not answered yet
        · rw [hack.totalStake_ack] at hreached
          have havailable : Available cfg Honest w.links q.batch (acked ++ [name]) :=
            ⟨(List.sublist_append_left _ _).subperm.trans hack.all.subperm,
              hreached.trans (Nat.mod_le _ _), hack.holds⟩
          have hinv : ({ w with
              quorum := none
              processor := w.processor ++ [q.batch] } : Worker).Inv cfg Honest :=
            { h with
              quorum := fun _ hnone => absurd hnone (by simp)
              processor := List.forall_mem_append.mpr ⟨h.processor,
                List.forall_mem_singleton.mpr ⟨_, havailable⟩⟩ }
          exact hinv.links fun other => evolves_cancels _ _
        -- nobody is left to answer: the batch is dropped
        · exact { h with quorum := fun _ hnone => absurd hnone (by simp) }
        · refine { h with quorum := fun q' hq' => ?_ }
          obtain rfl := Option.some.inj hq'
          exact ⟨_, hack⟩
      · exact h

/-- **A step keeps the invariant.** -/
lemma Inv.step (h : w.Inv cfg Honest) {e : Event}
    (he : ∀ name, Honest name → e ≠ .link name .forge) : (w.step cfg e).Inv cfg Honest := by
  cases e with
  | transaction t =>
      have hpush : (w.push t).Inv cfg Honest := { h with }
      rw [Worker.step, receiveTransaction]
      split_ifs
      · exact h
      · exact hpush.sealBatch
      · exact hpush
  | timer =>
      rw [Worker.step, expire]
      split_ifs
      · exact h
      · exact h
      · exact h.sealBatch
  | link name e =>
      have hlinks := h.links fun other => evolves_step cfg w (.link name e) (he other)
      rw [Worker.step] at hlinks ⊢
      cases e <;> exact hlinks
  | next => exact h.next
  | ack i => exact h.acknowledge i

lemma inv_run (Honest : ℕ → Prop) (cfg : WorkerConfig) (events : List Event)
    (hevents : ∀ name, Honest name → .link name .forge ∉ events) :
    (run cfg events).Inv cfg Honest := by
  induction events using List.reverseRecOn with
  | nil => exact ⟨fun _ => ReliableSender.Link.kept_run [],
      fun _ _ => ReliableSender.Link.answered_start, fun _ hm => absurd hm List.not_mem_nil,
      fun _ hq => absurd hq (by simp [run, spawn]), fun _ hb => absurd hb List.not_mem_nil⟩
  | append_singleton events e ih =>
      rw [run_append_singleton]
      refine (ih fun name hname hmem => hevents name hname (List.mem_append_left _ hmem)).step
        fun name hname heq => hevents name hname ?_
      rw [heq]
      exact List.mem_append_right _ (List.mem_singleton_self _)

/-! ### Availability -/

lemma nodup_othersWorkers (cfg : WorkerConfig) : (cfg.name :: cfg.othersWorkers).Nodup := by
  refine List.nodup_cons.mpr ⟨fun hmem => ?_, Committee.nodup_keys.filter _⟩
  have hne := (List.mem_filter.mp hmem).2
  simp at hne

/-- What has been acknowledged by a quorum is held by honest authorities of a third of the
stake. -/
lemma Available.exists_holders {faulty : Finset ℕ} {links : ℕ → Link Batch} {b : Batch}
    {acked : List ℕ} (h : Available cfg (· ∉ faulty) links b acked)
    (hfits : cfg.committee.Fits)
    (hfaulty : 3 * cfg.committee.weight faulty < cfg.committee.totalVotes) :
    ∃ holders : Finset ℕ, cfg.committee.validityThreshold ≤ cfg.committee.weight holders ∧
      ∀ name ∈ holders, name ∉ faulty ∧
        (name = cfg.name ∨ ∃ m ∈ (links name).received, m.data = b) := by
  have hnodup : (cfg.name :: acked).Nodup := by
    obtain ⟨l, hperm, hsublist⟩ := (List.subperm_cons cfg.name).mpr h.others
    exact hperm.nodup_iff.mp (hsublist.nodup (nodup_othersWorkers cfg))
  refine ⟨(cfg.name :: acked).toFinset \ faulty, ?_, fun name hname => ?_⟩
  -- the workers counted, less the faulty ones, have what a quorum has beyond a third
  · have hweight : cfg.committee.weight (cfg.name :: acked).toFinset =
        cfg.committee.stake cfg.name + (acked.map cfg.committee.stake).sum := by
      rw [Committee.weight, List.sum_toFinset _ hnodup, List.map_cons, List.sum_cons]
    have hsplit : cfg.committee.weight (cfg.name :: acked).toFinset ≤
        cfg.committee.weight ((cfg.name :: acked).toFinset \ faulty) +
          cfg.committee.weight faulty := by
      have hinter : cfg.committee.weight ((cfg.name :: acked).toFinset ∩ faulty) ≤
          cfg.committee.weight faulty := Finset.sum_le_sum_of_subset Finset.inter_subset_right
      rw [Committee.weight, ← Finset.sum_sdiff
        (Finset.inter_subset_left : (cfg.name :: acked).toFinset ∩ faulty ⊆ _),
        Finset.sdiff_inter_self_left]
      exact Nat.add_le_add_left hinter _
    have hquorum := h.quorum
    rw [← hweight, Committee.quorumThreshold_le_iff hfits] at hquorum
    rw [Committee.totalVotes_eq hfits] at hfaulty
    rw [Committee.validityThreshold_le_iff hfits]
    omega
  · obtain ⟨hmem, hhonest⟩ := Finset.mem_sdiff.mp hname
    refine ⟨hhonest, ?_⟩
    rcases List.mem_cons.mp (List.mem_toFinset.mp hmem) with rfl | hacked
    · exact Or.inl rfl
    · exact Or.inr (h.holds name hacked hhonest)

/-- **What a worker reports is available.** Over any run, if less than a third of the
stake is faulty, no sum of stakes overflows and honest workers acknowledge only what they
receive, each batch that the processor is given is held by honest authorities that
together have the validity threshold. -/
theorem batches_available (cfg : WorkerConfig) (faulty : Finset ℕ)
    (hfits : cfg.committee.Fits)
    (hfaulty : 3 * cfg.committee.weight faulty < cfg.committee.totalVotes)
    (events : List Event) (hevents : ∀ name ∉ faulty, .link name .forge ∉ events) :
    ∀ b ∈ (run cfg events).processor, ∃ holders : Finset ℕ,
      cfg.committee.validityThreshold ≤ cfg.committee.weight holders ∧
        ∀ name ∈ holders, name ∉ faulty ∧
          (name = cfg.name ∨ ∃ m ∈ ((run cfg events).links name).received, m.data = b) := by
  intro b hb
  obtain ⟨acked, havailable⟩ :=
    (inv_run (· ∉ faulty) cfg events hevents).processor b hb
  exact havailable.exists_holders hfits hfaulty

/-- A message goes over a link and is acknowledged. -/
def oneMessage (name : ℕ) : List Event :=
  [.link name (.connect true), .link name .receive, .link name (.write true),
    .link name .deliver, .link name (.response true)]

/-- Two of the other workers acknowledge a batch. -/
def twoAcks : List Event :=
  .transaction [1, 2] :: .next :: oneMessage 1 ++ oneMessage 2 ++ [.ack 0, .ack 0]

theorem batches_available_twoAcks : (run fourWorkers twoAcks).processor = [[[1, 2]]] ∧
    ∀ b ∈ (run fourWorkers twoAcks).processor, ∃ holders : Finset ℕ,
      fourWorkers.committee.validityThreshold ≤ fourWorkers.committee.weight holders ∧
        ∀ name ∈ holders, name ∉ ({3} : Finset ℕ) ∧ (name = fourWorkers.name ∨
          ∃ m ∈ ((run fourWorkers twoAcks).links name).received, m.data = b) :=
  ⟨by decide, batches_available fourWorkers {3} (by decide) (by decide) twoAcks
    (by simp [twoAcks, oneMessage])⟩

/-! ### Order -/

/-- The batches that the processor was given, that which the quorum waiter is at, and
those that wait for it. -/
def passed (w : Worker) : List Batch :=
  w.processor ++ (w.quorum.map Quorum.batch).toList ++ w.messages.map QuorumWaiterMessage.batch

/-- There are other workers, and all of them together with the worker are a quorum. -/
def Covers (cfg : WorkerConfig) : Prop :=
  cfg.othersWorkers ≠ [] ∧ cfg.committee.quorumThreshold ≤
    (cfg.committee.stake cfg.name + (cfg.othersWorkers.map cfg.committee.stake).sum) % 2 ^ 32

/-- How a step changes the batches on their way: new ones are added at the end, or one
is left out, which needs that there are too few workers. -/
def Passes (cfg : WorkerConfig) (w w' : Worker) : Prop :=
  (∃ l, w'.passed = w.passed ++ l ∧ w'.sealedBatches = w.sealedBatches ++ l) ∨
    w'.sealedBatches = w.sealedBatches ∧ w'.passed.Sublist w.passed ∧ ¬Covers cfg

lemma Passes.of_eq {w' : Worker} (hpassed : w'.passed = w.passed)
    (hsealed : w'.sealedBatches = w.sealedBatches) : Passes cfg w w' :=
  Or.inl ⟨[], by rw [hpassed, List.append_nil], by rw [hsealed, List.append_nil]⟩

lemma passes_sealBatch (w : Worker) : Passes cfg w (w.sealBatch cfg) := by
  rw [sealBatch]
  split_ifs
  · exact .of_eq rfl rfl
  · refine Or.inl ⟨[w.maker.currentBatch], ?_, rfl⟩
    simp [passed]

lemma Inv.passes_next (h : w.Inv cfg Honest) : Passes cfg w (w.next cfg) := by
  rw [Worker.next]
  split
  · rename_i m rest hquorum hmessages
    have hnames := (h.messages m (hmessages ▸ List.mem_cons_self ..)).1
    split
    · rename_i hempty
      refine Or.inr ⟨rfl, ?_, fun hcovers => hcovers.1 ?_⟩
      · simp [passed, hquorum, hmessages]
      · rw [← hnames, hempty]
        rfl
    · refine .of_eq ?_ rfl
      simp [passed, hquorum, hmessages]
  · exact .of_eq rfl rfl

lemma Inv.passes_acknowledge (h : w.Inv cfg Honest) (i : ℕ) :
    Passes cfg w (w.acknowledge cfg i) := by
  rw [Worker.acknowledge]
  split
  · exact .of_eq rfl rfl
  · rename_i q hquorum
    split
    · exact .of_eq rfl rfl
    · rename_i name handler hget
      split
      · rename_i hany
        obtain ⟨acked, hcounted⟩ := h.quorum q hquorum
        have hack := hcounted.ack h hget (by simpa using hany)
        rw [addStake]
        split_ifs with hreached hempty
        · refine .of_eq ?_ rfl
          simp [passed, hquorum, dropHandlers]
        · refine Or.inr ⟨rfl, ?_, fun hcovers => hreached ?_⟩
          · simp [passed, hquorum]
          -- everybody has answered, so the stakes of all others have been added up
          · have hall := hack.all
            rw [hempty, List.map_nil, List.append_nil] at hall
            rw [hack.totalStake_ack, (hall.map cfg.committee.stake).sum_nat]
            exact hcovers.2
        · refine .of_eq ?_ rfl
          simp [passed, hquorum]
      · exact .of_eq rfl rfl

lemma Inv.passes_step (h : w.Inv cfg Honest) (e : Event) : Passes cfg w (w.step cfg e) := by
  cases e with
  | transaction t =>
      rw [Worker.step, receiveTransaction]
      split_ifs
      · exact .of_eq rfl rfl
      · exact passes_sealBatch (w.push t)
      · exact .of_eq rfl rfl
  | timer =>
      rw [Worker.step, expire]
      split_ifs
      · exact .of_eq rfl rfl
      · exact .of_eq rfl rfl
      · exact passes_sealBatch w
  | link name e => cases e <;> exact .of_eq rfl rfl
  | next => exact h.passes_next
  | ack i => exact h.passes_acknowledge i

/-- **Batches reach the processor in the order in which they were sealed**, each at most
once; if there are other workers and they and the worker itself are a quorum, none is left
out. -/
theorem batches_in_order (cfg : WorkerConfig) (events : List Event) :
    (run cfg events).passed.Sublist (run cfg events).sealedBatches ∧
      (Covers cfg → (run cfg events).passed = (run cfg events).sealedBatches) := by
  induction events using List.reverseRecOn with
  | nil => exact ⟨List.Sublist.refl _, fun _ => rfl⟩
  | append_singleton events e ih =>
      obtain ⟨hsublist, heq⟩ := ih
      have hinv := inv_run (fun _ => False) cfg events fun _ h => h.elim
      rw [run_append_singleton]
      rcases hinv.passes_step e with ⟨l, hpassed, hsealed⟩ | ⟨hsealed, hpassed, hcovers⟩
      · rw [hpassed, hsealed]
        exact ⟨hsublist.append (List.Sublist.refl l), fun h => by rw [heq h]⟩
      · rw [hsealed]
        exact ⟨hpassed.trans hsublist, fun h => absurd h hcovers⟩

/-- The processor is given one of two batches, the other waits. -/
theorem batches_in_order_twoAcks : Covers fourWorkers ∧
    (run fourWorkers (.transaction [3, 4] :: twoAcks)).processor = [[[3, 4]]] ∧
    (run fourWorkers (.transaction [3, 4] :: twoAcks)).sealedBatches = [[[3, 4]], [[1, 2]]] ∧
    (run fourWorkers (.transaction [3, 4] :: twoAcks)).passed =
      (run fourWorkers (.transaction [3, 4] :: twoAcks)).sealedBatches := by
  have hcovers : Covers fourWorkers := by
    unfold Covers
    decide
  exact ⟨hcovers, by decide, by decide, (batches_in_order fourWorkers _).2 hcovers⟩

/-- Without other workers the quorum waiter leaves out each batch. -/
lemma Inv.idle_step (h : w.Inv cfg Honest) (hothers : cfg.othersWorkers = [])
    (hidle : w.quorum = none) (e : Event) :
    (w.step cfg e).quorum = none ∧ (w.step cfg e).processor = w.processor := by
  have hseal : ∀ w' : Worker, (w'.sealBatch cfg).quorum = w'.quorum ∧
      (w'.sealBatch cfg).processor = w'.processor := fun w' => by
    rw [Worker.sealBatch]
    split_ifs <;> exact ⟨rfl, rfl⟩
  cases e with
  | transaction t =>
      rw [Worker.step, receiveTransaction]
      split_ifs
      · exact ⟨hidle, rfl⟩
      · exact ⟨(hseal _).1.trans hidle, (hseal _).2⟩
      · exact ⟨hidle, rfl⟩
  | timer =>
      rw [Worker.step, expire]
      split_ifs
      · exact ⟨hidle, rfl⟩
      · exact ⟨hidle, rfl⟩
      · exact ⟨(hseal w).1.trans hidle, (hseal w).2⟩
  | link name e => cases e <;> exact ⟨hidle, rfl⟩
  | next =>
      rw [Worker.step, Worker.next]
      split
      · rename_i m rest hquorum hmessages
        -- a sealed batch has one handler for each other worker, so none here
        have hnames := (h.messages m (hmessages ▸ List.mem_cons_self ..)).1
        rw [hothers, List.map_eq_nil_iff] at hnames
        rw [if_pos hnames]
        exact ⟨hidle, rfl⟩
      · exact ⟨hidle, rfl⟩
  | ack i =>
      rw [Worker.step, Worker.acknowledge, hidle]
      exact ⟨hidle, rfl⟩

/-- **A worker without others reports nothing.** If no other authority has a worker of
the same id, no batch ever reaches the processor, although the authority alone may be
a quorum. -/
theorem lone_worker (cfg : WorkerConfig) (hothers : cfg.othersWorkers = [])
    (events : List Event) : (run cfg events).processor = [] := by
  have hnone : (run cfg events).quorum = none ∧ (run cfg events).processor = [] := by
    induction events using List.reverseRecOn with
    | nil => exact ⟨rfl, rfl⟩
    | append_singleton events e ih =>
        have hinv := inv_run (fun _ => False) cfg events fun _ h => h.elim
        obtain ⟨hidle, hprocessor⟩ := hinv.idle_step hothers ih.1 e
        rw [run_append_singleton]
        exact ⟨hidle, hprocessor.trans ih.2⟩
  exact hnone.2

lemma oneWorker_sorted : (([(0, 1)] : List (ℕ × ℕ)).map Prod.fst).Pairwise (· < ·) := by
  decide

/-- The worker of the only authority. -/
def oneWorker : WorkerConfig where
  committee := ⟨[(0, 1)], oneWorker_sorted⟩
  workers := fun _ => [0]
  name := 0
  id := 0
  batchSize := 2
  benchmark := false

theorem lone_worker_oneWorker :
    oneWorker.committee.quorumThreshold ≤ oneWorker.committee.stake 0 ∧
      (run oneWorker [.transaction [1, 2], .next]).sealedBatches = [[[1, 2]]] ∧
      (run oneWorker [.transaction [1, 2], .next]).processor = [] :=
  ⟨by decide, by decide, lone_worker oneWorker (by decide) _⟩

end Worker

end StablecoinSystem.Dissemination
