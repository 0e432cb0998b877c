import Mathlib.Data.List.Dedup
import Mathlib.Data.List.Perm.Subperm
import StablecoinSystem.Primary.Messages
import StablecoinSystem.Storage.Store

/-!
The waiter for headers (`primary/src/header_waiter.rs`).

The core hands over headers whose batches or parents are missing. The waiter asks others
for them and gives a header back once everything it waits for is in the store. The store
is given by all the commands that it has received, from whichever task: the values are
not looked at. A future sends its `notify_read`s when it is polled, one after the other,
with commands of other tasks in between. A cancel handler is named by a number; it is
gone when `pending` no longer has it, since a message and the end of the channel have the
same effect.

The lookups in the committee always succeed, because the headers have been verified.

* `isReady_iff`: a future that has sent its `notify_read`s is ready exactly if all its
  keys are stored;
* `gives_back_complete`: what the waiter gives back, over any run.
-/

namespace StablecoinSystem.Primary

open Storage

/-- A key of the store of a primary: a digest, or a digest and the id of a worker. -/
inductive StoreKey where
  | digest (d : ℕ)
  | payload (d worker : ℕ)
deriving DecidableEq

/-- `WaiterMessage`. -/
inductive WaiterMessage where
  | syncBatches (missing : List (ℕ × ℕ)) (header : Header)
  | syncParents (missing : List ℕ) (header : Header)

namespace WaiterMessage

/-- The header that is handed over. -/
def header : WaiterMessage → Header
  | .syncBatches _ h => h
  | .syncParents _ h => h

/-- What the header waits for. -/
def keys : WaiterMessage → List StoreKey
  | .syncBatches missing _ => missing.map fun entry => .payload entry.1 entry.2
  | .syncParents missing _ => missing.map .digest

end WaiterMessage

/-- A future of `waiter`, with the message that it was made for. `asked` are the
`notify_read`s that it has sent, each as the number of commands before it. -/
structure Waiter where
  message : WaiterMessage
  asked : List ℕ
  handler : ℕ

namespace Waiter

variable (f : Waiter)

/-- The header that it returns. -/
def header : Header := f.message.header

/-- What it waits for. -/
def keys : List StoreKey := f.message.keys

/-- Whether it has sent all its `notify_read`s. -/
def isPolled : Bool := f.asked.length = f.keys.length

end Waiter

/-- What the waiter sends over the network. A `synchronize` is addressed to a worker of
an authority, a `certificatesRequest` to its primary. -/
inductive WaiterRequest where
  | synchronize (authority worker : ℕ) (digests : List ℕ) (target : ℕ)
  | certificatesRequest (authority : ℕ) (digests : List ℕ) (requestor : ℕ)

/-- `HeaderWaiter`, with the commands that the store has received, the futures whose
headers were sent to the core and what was sent over the network. -/
structure HeaderWaiter (V : Type) where
  name : ℕ
  gcDepth : ℕ
  syncRetryDelay : ℕ
  parentRequests : List (ℕ × ℕ × ℕ)
  batchRequests : List (ℕ × ℕ)
  pending : List (ℕ × ℕ × ℕ)
  waiting : List Waiter
  opened : ℕ
  commands : List (StoreCommand StoreKey V)
  delivered : List Waiter
  requests : List WaiterRequest

/-- What the waiter is woken by, when its futures send to the store, and what other tasks
send there. `now` is the time, `round` the consensus round that the turn reads at its end,
and `chosen` are the primaries picked at random. -/
inductive WaiterEvent (V : Type) where
  | receive (m : WaiterMessage) (now round : ℕ)
  | poll (i : ℕ)
  | complete (i round : ℕ)
  | cancel (i round : ℕ)
  | timer (now : ℕ) (chosen : List ℕ) (round : ℕ)
  | command (c : StoreCommand StoreKey V)

/-- The entries for which no request has been made, as the loop over `missing` finds
them. -/
def unrequested {α : Type} (digest : α → ℕ) (requested : List ℕ) : List α → List α
  | [] => []
  | x :: missing =>
      if digest x ∈ requested then unrequested digest requested missing
      else x :: unrequested digest (digest x :: requested) missing

lemma mem_of_mem_unrequested {α : Type} {digest : α → ℕ} {requested : List ℕ} {missing : List α}
    {x : α} (h : x ∈ unrequested digest requested missing) : x ∈ missing := by
  induction missing generalizing requested with
  | nil => exact h
  | cons y missing ih =>
      rw [unrequested] at h
      split at h
      · exact List.mem_cons_of_mem _ (ih h)
      · rcases List.mem_cons.mp h with rfl | h
        · exact List.mem_cons_self ..
        · exact List.mem_cons_of_mem _ (ih h)

namespace HeaderWaiter

variable {V : Type}

/-- `HeaderWaiter::spawn`. -/
def spawn (name gcDepth syncRetryDelay : ℕ) : HeaderWaiter V :=
  ⟨name, gcDepth, syncRetryDelay, [], [], [], [], 0, [], [], []⟩

variable (w : HeaderWaiter V)

/-- The database. -/
def db : Store StoreKey V := (StoreTask.run w.commands).db

/-- The end of a turn: forget what the garbage collector has passed. -/
def cleanup (round : ℕ) : HeaderWaiter V :=
  if w.gcDepth < round then
    { w with
      pending := w.pending.filter fun p => round - w.gcDepth < p.2.1
      batchRequests := w.batchRequests.filter fun r => round - w.gcDepth < r.2
      parentRequests := w.parentRequests.filter fun r => round - w.gcDepth < r.2.1 }
  else w

/-- Add a header to the pool. -/
def await (m : WaiterMessage) : HeaderWaiter V :=
  { w with
    pending := (m.header.id, m.header.round, w.opened) :: w.pending
    waiting := w.waiting ++ [⟨m, [], w.opened⟩]
    opened := w.opened + 1 }

/-- The batches that have not been asked for. -/
def newBatches (missing : List (ℕ × ℕ)) : List (ℕ × ℕ) :=
  unrequested Prod.fst (w.batchRequests.map Prod.fst) missing

/-- Ask for batches: the requests go to the workers of the author of the header, and
name the author as the one to get them from. -/
def requestBatches (missing : List (ℕ × ℕ)) (h : Header) : HeaderWaiter V :=
  { w with
    batchRequests := (w.newBatches missing).map (fun entry => (entry.1, h.round)) ++ w.batchRequests
    requests := w.requests ++ ((w.newBatches missing).map Prod.snd).dedup.map fun worker =>
      .synchronize h.author worker
        (((w.newBatches missing).filter fun entry => entry.2 = worker).map Prod.fst) h.author }

/-- The parents that have not been asked for. -/
def newParents (missing : List ℕ) : List ℕ :=
  unrequested id (w.parentRequests.map Prod.fst) missing

/-- Ask the author of a header for its parents. -/
def requestParents (missing : List ℕ) (h : Header) (now : ℕ) : HeaderWaiter V :=
  { w with
    parentRequests := (w.newParents missing).map (fun d => (d, h.round, now)) ++ w.parentRequests
    requests := w.requests ++
      if w.newParents missing = [] then []
      else [.certificatesRequest h.author (w.newParents missing) w.name] }

/-- A message of the core. The turn ends at once if the header is pending. -/
def receive (m : WaiterMessage) (now round : ℕ) : HeaderWaiter V :=
  if m.header.id ∈ w.pending.map Prod.fst then w
  else
    match m with
    | .syncBatches missing h => ((w.await m).requestBatches missing h).cleanup round
    | .syncParents missing h => ((w.await m).requestParents missing h now).cleanup round

/-- A future sends its next `notify_read`. -/
def poll (i : ℕ) : HeaderWaiter V :=
  match w.waiting[i]? with
  | none => w
  | some f =>
      match f.keys[f.asked.length]? with
      | none => w
      | some key =>
          { w with
            waiting := w.waiting.set i { f with asked := f.asked ++ [w.commands.length] }
            commands := w.commands ++ [.notifyRead key] }

/-- Whether all `notify_read`s of a future have been sent and answered. -/
def isReady (f : Waiter) : Bool :=
  f.isPolled && f.asked.all fun n => !((StoreTask.run w.commands).repliesTo n).isEmpty

/-- Give back the header of a future that is ready. -/
def deliver (f : Waiter) (i : ℕ) : HeaderWaiter V :=
  { w with
    waiting := w.waiting.eraseIdx i
    pending := w.pending.filter fun p => p.1 ≠ f.header.id
    batchRequests := w.batchRequests.filter fun r => r.1 ∉ f.header.payload.map Prod.fst
    parentRequests := w.parentRequests.filter fun r => r.1 ∉ f.header.parents
    delivered := w.delivered ++ [f] }

/-- A future returns its header. -/
def complete (i round : ℕ) : HeaderWaiter V :=
  match w.waiting[i]? with
  | none => w
  | some f => if w.isReady f then (w.deliver f i).cleanup round else w

/-- A future returns nothing, because its cancel handler is gone. -/
def cancel (i round : ℕ) : HeaderWaiter V :=
  match w.waiting[i]? with
  | none => w
  | some f =>
      if f.handler ∈ w.pending.map fun p => p.2.2 then w
      else { w with waiting := w.waiting.eraseIdx i }.cleanup round

/-- The parents that have been asked for and have not come in time. -/
def overdue (now : ℕ) : List ℕ :=
  (w.parentRequests.filter fun r => r.2.2 + w.syncRetryDelay < now).map Prod.fst

/-- Ask some other primaries again. -/
def retry (now : ℕ) (chosen : List ℕ) (round : ℕ) : HeaderWaiter V :=
  { w with
    requests := w.requests ++ chosen.map fun name =>
      WaiterRequest.certificatesRequest name (w.overdue now) w.name }.cleanup round

/-- One turn of the loop, or a command of another task to the store. -/
def step : WaiterEvent V → HeaderWaiter V
  | .receive m now round => w.receive m now round
  | .poll i => w.poll i
  | .complete i round => w.complete i round
  | .cancel i round => w.cancel i round
  | .timer now chosen round => w.retry now chosen round
  | .command c => { w with commands := w.commands ++ [c] }

/-- What the core has handed over. -/
def handed (events : List (WaiterEvent V)) : List WaiterMessage :=
  events.filterMap fun
    | .receive m _ _ => some m
    | _ => none

/-! ### What a step leaves alone -/

section Cleanup

variable (round : ℕ)

lemma waiting_cleanup : (w.cleanup round).waiting = w.waiting := by
  rw [cleanup]
  split <;> rfl

lemma commands_cleanup : (w.cleanup round).commands = w.commands := by
  rw [cleanup]
  split <;> rfl

lemma delivered_cleanup : (w.cleanup round).delivered = w.delivered := by
  rw [cleanup]
  split <;> rfl

lemma requests_cleanup : (w.cleanup round).requests = w.requests := by
  rw [cleanup]
  split <;> rfl

end Cleanup

variable {w}

/-- What a step does to the futures, the store and the headers given back. -/
inductive Advance (w w' : HeaderWaiter V) : WaiterEvent V → Prop where
  | idle {e} (hwaiting : w'.waiting = w.waiting) (hcommands : w'.commands = w.commands)
      (hdelivered : w'.delivered = w.delivered) : Advance w w' e
  | await {m now round} (hwaiting : w'.waiting = w.waiting ++ [⟨m, [], w.opened⟩])
      (hcommands : w'.commands = w.commands) (hdelivered : w'.delivered = w.delivered) :
      Advance w w' (.receive m now round)
  | poll {i f key} (hf : w.waiting[i]? = some f) (hkey : f.keys[f.asked.length]? = some key)
      (hwaiting : w'.waiting =
        w.waiting.set i { f with asked := f.asked ++ [w.commands.length] })
      (hcommands : w'.commands = w.commands ++ [.notifyRead key])
      (hdelivered : w'.delivered = w.delivered) : Advance w w' (.poll i)
  | deliver {i round f} (hf : w.waiting[i]? = some f) (hready : w.isReady f)
      (hwaiting : w'.waiting = w.waiting.eraseIdx i) (hcommands : w'.commands = w.commands)
      (hdelivered : w'.delivered = w.delivered ++ [f]) : Advance w w' (.complete i round)
  | drop {i round} (hwaiting : w'.waiting = w.waiting.eraseIdx i)
      (hcommands : w'.commands = w.commands) (hdelivered : w'.delivered = w.delivered) :
      Advance w w' (.cancel i round)
  | command {c} (hwaiting : w'.waiting = w.waiting) (hcommands : w'.commands = w.commands ++ [c])
      (hdelivered : w'.delivered = w.delivered) : Advance w w' (.command c)

lemma advance_step (w : HeaderWaiter V) (e : WaiterEvent V) : Advance w (w.step e) e := by
  cases e with
  | receive m now round =>
      -- A header already in `pending` is ignored, whatever it waits for.
      by_cases hpending : m.header.id ∈ w.pending.map Prod.fst
      · rw [step, receive.eq_def, if_pos hpending]
        exact .idle rfl rfl rfl
      · rw [step, receive.eq_def, if_neg hpending]
        cases m with
        | syncBatches missing h =>
            exact .await (waiting_cleanup _ _) (commands_cleanup _ _) (delivered_cleanup _ _)
        | syncParents missing h =>
            exact .await (waiting_cleanup _ _) (commands_cleanup _ _) (delivered_cleanup _ _)
  | poll i =>
      rw [step, poll]
      cases hf : w.waiting[i]? with
      | none => exact .idle rfl rfl rfl
      | some f =>
          cases hkey : f.keys[f.asked.length]? with
          | none =>
              simp only [hkey]
              exact .idle rfl rfl rfl
          | some key =>
              simp only [hkey]
              exact .poll hf hkey rfl rfl rfl
  | complete i round =>
      rw [step, complete]
      cases hf : w.waiting[i]? with
      | none => exact .idle rfl rfl rfl
      | some f =>
          -- `complete` with a key still missing models no turn: the future stays pending.
          by_cases hready : w.isReady f
          · simp only [hready, if_true]
            exact .deliver hf hready (waiting_cleanup _ _) (commands_cleanup _ _)
              (delivered_cleanup _ _)
          · simp only [hready]
            exact .idle rfl rfl rfl
  | cancel i round =>
      rw [step, cancel]
      cases hf : w.waiting[i]? with
      | none => exact .idle rfl rfl rfl
      | some f =>
          dsimp only
          split
          · exact .idle rfl rfl rfl
          · exact .drop (waiting_cleanup _ _) (commands_cleanup _ _) (delivered_cleanup _ _)
  | timer now chosen round =>
      exact .idle (waiting_cleanup _ _) (commands_cleanup _ _) (delivered_cleanup _ _)
  | command c => exact .command rfl rfl rfl

/-- A key is stored after a step only if it was before or another task has written it. -/
lemma isSome_db_step {e : WaiterEvent V} {key : StoreKey} (h : ((w.step e).db key).isSome) :
    (w.db key).isSome ∨ ∃ value, e = .command (.write key value) := by
  cases advance_step w e with
  | idle hwaiting hcommands hdelivered | await hwaiting hcommands hdelivered
  | deliver hf hready hwaiting hcommands hdelivered | drop hwaiting hcommands hdelivered =>
      rw [db, hcommands] at h
      exact Or.inl h
  | poll hf hkey hwaiting hcommands hdelivered =>
      rw [db, hcommands] at h
      refine (StoreTask.isSome_db_of_append h).imp_right fun ⟨c, hc, hwritten⟩ => ?_
      obtain rfl := List.mem_singleton.mp hc
      cases hwritten
  | @command c hwaiting hcommands hdelivered =>
      rw [db, hcommands] at h
      refine (StoreTask.isSome_db_of_append h).imp_right fun ⟨c', hc, hwritten⟩ => ?_
      obtain rfl := List.mem_singleton.mp hc
      cases c' with
      | write key' value =>
          by_cases hkey : key' = key
          · exact ⟨value, by rw [hkey]⟩
          · simp [StoreCommand.written, hkey] at hwritten
      | read key' => cases hwritten
      | notifyRead key' => cases hwritten

/-- What a step sends over the network: requests for certificates, and requests for
batches to the workers of the author of a header that lacks them. -/
lemma requests_step {e : WaiterEvent V} {r : WaiterRequest} (h : r ∈ (w.step e).requests) :
    r ∈ w.requests ∨ (∃ authority digests requestor,
        r = .certificatesRequest authority digests requestor) ∨
      ∃ missing header now round worker digests,
        e = .receive (.syncBatches missing header) now round ∧
          r = .synchronize header.author worker digests header.author ∧
          ∀ d ∈ digests, (d, worker) ∈ missing := by
  cases e with
  | receive m now round =>
      by_cases hpending : m.header.id ∈ w.pending.map Prod.fst
      · rw [step, receive.eq_def, if_pos hpending] at h
        exact Or.inl h
      · rw [step, receive.eq_def, if_neg hpending] at h
        cases m with
        | syncBatches missing header =>
            rw [requests_cleanup] at h
            refine (List.mem_append.mp h).imp_right fun hnew => Or.inr ?_
            obtain ⟨worker, -, rfl⟩ := List.mem_map.mp hnew
            -- The digests of one request are those of its worker among the ones not asked for yet.
            refine ⟨missing, header, now, round, worker, _, rfl, rfl, fun d hd => ?_⟩
            obtain ⟨⟨d', worker'⟩, hentry, rfl⟩ := List.mem_map.mp hd
            obtain ⟨hmem, hworker⟩ := List.mem_filter.mp hentry
            obtain rfl : worker' = worker := by simpa using hworker
            exact mem_of_mem_unrequested hmem
        | syncParents missing header =>
            rw [requests_cleanup] at h
            refine (List.mem_append.mp h).imp_right fun hnew => Or.inl ?_
            split at hnew
            · exact absurd hnew List.not_mem_nil
            · exact ⟨_, _, _, List.mem_singleton.mp hnew⟩
  | poll i =>
      left
      rw [step, poll] at h
      split at h
      · exact h
      · split at h <;> exact h
  | complete i round =>
      left
      rw [step, complete] at h
      cases hf : w.waiting[i]? with
      | none => simpa [hf] using h
      | some f =>
          simp only [hf] at h
          split at h
          · rwa [requests_cleanup] at h
          · exact h
  | cancel i round =>
      left
      rw [step, cancel] at h
      cases hf : w.waiting[i]? with
      | none => simpa [hf] using h
      | some f =>
          simp only [hf] at h
          split at h
          · exact h
          · rwa [requests_cleanup] at h
  | timer now chosen round =>
      -- The timer only repeats requests for certificates, never those for batches.
      rw [step, retry, requests_cleanup] at h
      refine (List.mem_append.mp h).imp_right fun hnew => Or.inl ?_
      obtain ⟨name, -, rfl⟩ := List.mem_map.mp hnew
      exact ⟨_, _, _, rfl⟩
  | command c => exact Or.inl h

/-! ### Futures and the store -/

/-- What a future has asked for is what it waits for, as far as it has come. -/
def Issued (commands : List (StoreCommand StoreKey V)) (f : Waiter) : Prop :=
  List.Forall₂ (fun n key => commands[n]? = some (.notifyRead key)) f.asked
    (f.keys.take f.asked.length)

namespace Issued

variable {commands : List (StoreCommand StoreKey V)} {f : Waiter}

lemma append (h : Issued commands f) (more : List (StoreCommand StoreKey V)) :
    Issued (commands ++ more) f := by
  refine List.Forall₂.imp (fun n key hn => ?_) h
  rw [List.getElem?_append_left (List.getElem?_eq_some_iff.mp hn).1]
  exact hn

/-- The future sends its next `notify_read`. -/
lemma poll (h : Issued commands f) {key : StoreKey}
    (hkey : f.keys[f.asked.length]? = some key) :
    Issued (commands ++ [.notifyRead key]) { f with asked := f.asked ++ [commands.length] } := by
  rw [Issued, List.length_append, List.length_singleton]
  change List.Forall₂ _ _ (f.keys.take (f.asked.length + 1))
  rw [List.take_add_one, hkey]
  exact List.rel_append (h.append _) (.cons (List.getElem?_concat_length) .nil)

end Issued

/-- **No wake-up is lost**: a future is ready exactly if it has been polled and all its
keys are stored. -/
lemma isReady_iff {f : Waiter} (h : Issued w.commands f) :
    w.isReady f = true ↔ f.isPolled = true ∧ ∀ key ∈ f.keys, (w.db key).isSome := by
  rw [isReady, Bool.and_eq_true]
  refine and_congr_right fun hpolled => ?_
  rw [Waiter.isPolled, decide_eq_true_eq] at hpolled
  rw [Issued, hpolled, List.take_length] at h
  simp only [List.all_eq_true, Bool.not_eq_true', List.isEmpty_eq_false_iff]
  clear hpolled
  generalize f.asked = asked, f.keys = keys at h ⊢
  induction h with
  | nil => simp
  | cons hn _ ih =>
      rw [List.forall_mem_cons, List.forall_mem_cons, ih]
      exact and_congr_left fun _ => StoreTask.answered_iff_getElem? hn

/-- What the futures and the headers given back owe to what was handed over. -/
structure Inv (handed : List WaiterMessage) (waiting : List Waiter)
    (commands : List (StoreCommand StoreKey V)) (delivered : List Waiter) : Prop where
  issued : ∀ f ∈ waiting, Issued commands f
  counted : ((delivered ++ waiting).map Waiter.message).Subperm handed
  complete : ∀ f ∈ delivered, ∀ key ∈ f.keys, ((StoreTask.run commands).db key).isSome

namespace Inv

variable {messages : List WaiterMessage}

lemma append (h : Inv messages w.waiting w.commands w.delivered)
    (more : List (StoreCommand StoreKey V)) :
    Inv messages w.waiting (w.commands ++ more) w.delivered where
  issued f hf := (h.issued f hf).append more
  counted := h.counted
  complete f hf key hkey := StoreTask.isSome_db_append (h.complete f hf key hkey) more

lemma await (h : Inv messages w.waiting w.commands w.delivered) (m : WaiterMessage) :
    Inv (messages ++ [m]) (w.waiting ++ [⟨m, [], w.opened⟩]) w.commands w.delivered where
  issued := List.forall_mem_append.mpr ⟨h.issued, List.forall_mem_singleton.mpr .nil⟩
  counted := by
    rw [← List.append_assoc, List.map_append]
    exact h.counted.append (List.Subperm.refl _)
  complete := h.complete

lemma poll (h : Inv messages w.waiting w.commands w.delivered) {i : ℕ} {f : Waiter}
    {key : StoreKey} (hf : w.waiting[i]? = some f)
    (hkey : f.keys[f.asked.length]? = some key) :
    Inv messages (w.waiting.set i { f with asked := f.asked ++ [w.commands.length] })
      (w.commands ++ [.notifyRead key]) w.delivered := by
  have hold := h.append [.notifyRead key]
  refine ⟨fun g hg => ?_, ?_, hold.complete⟩
  · rcases List.mem_or_eq_of_mem_set hg with hg | rfl
    · exact hold.issued g hg
    · exact (h.issued f (List.mem_of_getElem? hf)).poll hkey
  · -- The message of the future is the same as before.
    have hmessages : (w.waiting.set i { f with asked := f.asked ++ [w.commands.length] }).map
        Waiter.message = w.waiting.map Waiter.message := by
      obtain ⟨hi, rfl⟩ := List.getElem?_eq_some_iff.mp hf
      rw [List.map_set, ← List.getElem_map Waiter.message, List.set_getElem_self]
      rwa [List.length_map]
    rw [List.map_append, hmessages, ← List.map_append]
    exact h.counted

lemma deliver (h : Inv messages w.waiting w.commands w.delivered) {i : ℕ} {f : Waiter}
    (hf : w.waiting[i]? = some f) (hready : w.isReady f) :
    Inv messages (w.waiting.eraseIdx i) w.commands (w.delivered ++ [f]) := by
  have hmem : f ∈ w.waiting := List.mem_of_getElem? hf
  have hperm : (w.delivered ++ [f] ++ w.waiting.eraseIdx i).Perm (w.delivered ++ w.waiting) := by
    obtain ⟨hi, rfl⟩ := List.getElem?_eq_some_iff.mp hf
    rw [List.append_assoc]
    exact (List.getElem_cons_eraseIdx_perm hi).append_left w.delivered
  refine ⟨fun g hg => h.issued g (List.mem_of_mem_eraseIdx hg),
    (hperm.map Waiter.message).subperm.trans h.counted, ?_⟩
  refine List.forall_mem_append.mpr ⟨h.complete, List.forall_mem_singleton.mpr ?_⟩
  exact ((isReady_iff (h.issued f hmem)).mp hready).2

lemma drop (h : Inv messages w.waiting w.commands w.delivered) (i : ℕ) :
    Inv messages (w.waiting.eraseIdx i) w.commands w.delivered where
  issued g hg := h.issued g (List.mem_of_mem_eraseIdx hg)
  counted := by
    have hsublist := ((List.eraseIdx_sublist w.waiting i).append_left w.delivered).map
      Waiter.message
    exact hsublist.subperm.trans h.counted
  complete := h.complete

/-- Messages that the waiter ignores. -/
lemma mono (h : Inv messages w.waiting w.commands w.delivered) (more : List WaiterMessage) :
    Inv (messages ++ more) w.waiting w.commands w.delivered :=
  { h with counted := h.counted.trans (List.sublist_append_left _ _).subperm }

lemma step {w' : HeaderWaiter V} {e : WaiterEvent V}
    (h : Inv messages w.waiting w.commands w.delivered) (hadvance : Advance w w' e) :
    Inv (messages ++ handed [e]) w'.waiting w'.commands w'.delivered := by
  cases hadvance with
  | idle hwaiting hcommands hdelivered =>
      rw [hwaiting, hcommands, hdelivered]
      exact h.mono _
  | await hwaiting hcommands hdelivered =>
      rw [hwaiting, hcommands, hdelivered]
      exact h.await _
  | poll hf hkey hwaiting hcommands hdelivered =>
      rw [hwaiting, hcommands, hdelivered]
      simpa [handed] using h.poll hf hkey
  | deliver hf hready hwaiting hcommands hdelivered =>
      rw [hwaiting, hcommands, hdelivered]
      simpa [handed] using h.deliver hf hready
  | drop hwaiting hcommands hdelivered =>
      rw [hwaiting, hcommands, hdelivered]
      simpa [handed] using h.drop _
  | command hwaiting hcommands hdelivered =>
      rw [hwaiting, hcommands, hdelivered]
      simpa [handed] using h.append _

end Inv

/-- The waiter after some turns. -/
def run (name gcDepth syncRetryDelay : ℕ) (events : List (WaiterEvent V)) : HeaderWaiter V :=
  events.foldl step (spawn name gcDepth syncRetryDelay)

lemma inv_run (name gcDepth syncRetryDelay : ℕ) (events : List (WaiterEvent V)) :
    Inv (handed events) (run name gcDepth syncRetryDelay events).waiting
      (run name gcDepth syncRetryDelay events).commands
      (run name gcDepth syncRetryDelay events).delivered := by
  induction events using List.reverseRecOn with
  | nil =>
      exact ⟨fun _ h => absurd h List.not_mem_nil, List.Subperm.refl _,
        fun _ h => absurd h List.not_mem_nil⟩
  | append_singleton events e ih =>
      rw [run, List.foldl_append, handed, List.filterMap_append]
      exact ih.step (advance_step _ e)

/-- A future returns its header in a turn exactly if it is ready. -/
lemma delivered_complete_iff {i : ℕ} {f : Waiter} (hf : w.waiting[i]? = some f) (round : ℕ) :
    (w.step (.complete i round)).delivered = w.delivered ++ [f] ↔ w.isReady f = true := by
  rw [step, complete, hf]
  dsimp only
  split
  · rename_i hready
    exact iff_of_true (delivered_cleanup _ _) hready
  · rename_i hready
    exact iff_of_false (fun h => by simp at h) hready

/-- **A header comes back complete and no more often than it was handed over.** Over any
run of the waiter, in any interleaving with the other users of the store: the futures that
have returned their headers belong to different messages of the core, and each of them
finds all that its own message says to be missing in the store. A future that is still
there belongs to a message of the core, and returns its header in a turn exactly if it has
been polled and what it waits for is stored. -/
theorem gives_back_complete (name gcDepth syncRetryDelay : ℕ) (events : List (WaiterEvent V)) :
    ((run name gcDepth syncRetryDelay events).delivered.map Waiter.message).Subperm
        (handed events) ∧
      (∀ f ∈ (run name gcDepth syncRetryDelay events).delivered, ∀ key ∈ f.message.keys,
        ((run name gcDepth syncRetryDelay events).db key).isSome) ∧
      ∀ i f, (run name gcDepth syncRetryDelay events).waiting[i]? = some f →
        f.message ∈ handed events ∧
          ∀ round, ((run name gcDepth syncRetryDelay (events ++ [.complete i round])).delivered =
              (run name gcDepth syncRetryDelay events).delivered ++ [f] ↔
            f.isPolled = true ∧
              ∀ key ∈ f.message.keys, ((run name gcDepth syncRetryDelay events).db key).isSome) := by
  have h := inv_run name gcDepth syncRetryDelay events
  refine ⟨?_, h.complete, fun i f hf => ?_⟩
  · exact ((List.sublist_append_left _ _).map Waiter.message).subperm.trans h.counted
  · have hmem := List.mem_of_getElem? hf
    refine ⟨h.counted.subset (List.mem_map_of_mem (List.mem_append_right _ hmem)), fun round => ?_⟩
    rw [run, List.foldl_append]
    exact (delivered_complete_iff hf round).trans (isReady_iff (h.issued f hmem))

lemma returned_sorted : (([(1, 0)] : List (ℕ × ℕ)).map Prod.fst).Pairwise (· < ·) := by
  decide

lemma returned_parents : ([7] : List ℕ).Pairwise (· < ·) := by
  decide

/-- A header with one batch and one parent. -/
def returned : Header := ⟨0, 2, [(1, 0)], [7], 5, 0, returned_sorted, returned_parents⟩

/-- The header lacks its parent, is given back and is handed over again because it lacks
its batch. -/
def returnedTwice : List (WaiterEvent Unit) :=
  [.receive (.syncParents [7] returned) 0 0, .poll 0, .command (.write (.digest 7) ()),
    .complete 0 0, .receive (.syncBatches [(1, 0)] returned) 0 0, .poll 0, .complete 0 0,
    .command (.write (.payload 1 0) ())]

theorem gives_back_complete_returnedTwice :
    (run 1 50 5 returnedTwice).delivered.map (fun f => (f.header.id, f.keys)) =
        [(5, [.digest 7])] ∧
      (run 1 50 5 (returnedTwice ++ [.complete 0 0])).delivered.map
          (fun f => (f.header.id, f.keys)) = [(5, [.digest 7]), (5, [.payload 1 0])] ∧
      ∀ f ∈ (run 1 50 5 (returnedTwice ++ [.complete 0 0])).delivered, ∀ key ∈ f.message.keys,
        ((run 1 50 5 (returnedTwice ++ [.complete 0 0])).db key).isSome := by
  obtain ⟨-, hstored, -⟩ := gives_back_complete 1 50 5 (returnedTwice ++ [.complete 0 0])
  exact ⟨by decide, by decide, hstored⟩

end HeaderWaiter

end StablecoinSystem.Primary
