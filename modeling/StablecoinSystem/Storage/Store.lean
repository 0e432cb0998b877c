import Mathlib.Data.List.Induction
import StablecoinSystem.Support.Store

/-!
The storage task (`store/src/lib.rs`).

The tasks of a node share one store. A task owns the database and takes the commands
of all the others from one channel, so an interleaving of theirs is a list of commands.
The reply to a command goes through a oneshot channel of its own, which is named by the
number of commands received before it. Errors of the database are left out.

* `db_run`: a key has the last value written to it;
* `repliesTo_run`: every `read` is answered at once with that value, and every
  `notify_read` exactly once, with that value or else the next one written;
* `answered_iff`: a `notify_read` has been answered as soon as its key is stored.
-/

namespace StablecoinSystem.Storage

variable {K V : Type} [DecidableEq K]

/-- `StoreCommand`, without the oneshot channels. -/
inductive StoreCommand (K V : Type) where
  | write (key : K) (value : V)
  | read (key : K)
  | notifyRead (key : K)

namespace StoreCommand

/-- The value that a command writes to a key. -/
def written (key : K) : StoreCommand K V → Option V
  | .write key' value => if key' = key then some value else none
  | .read _ => none
  | .notifyRead _ => none

end StoreCommand

/-- The value last written to a key. -/
def lastWrite (key : K) (commands : List (StoreCommand K V)) : Option V :=
  commands.reverse.findSome? (StoreCommand.written key)

/-- The value first written to a key. -/
def firstWrite (key : K) (commands : List (StoreCommand K V)) : Option V :=
  commands.findSome? (StoreCommand.written key)

lemma isSome_lastWrite_eq (key : K) (commands : List (StoreCommand K V)) :
    (lastWrite key commands).isSome = (firstWrite key commands).isSome := by
  rw [Bool.eq_iff_iff]
  simp [lastWrite, firstWrite, List.findSome?_isSome_iff]

/-- The replies that a command is owed, given the commands before and after it. -/
def StoreCommand.owed (before after : List (StoreCommand K V)) :
    StoreCommand K V → List (Option V)
  | .write _ _ => []
  | .read key => [lastWrite key before]
  | .notifyRead key => ((lastWrite key before).or (firstWrite key after)).toList.map some

/-- The storage task: the database, the senders that wait for a key, the replies sent
and the number of commands received. -/
structure StoreTask (K V : Type) where
  db : Store K V
  obligations : K → List ℕ
  replies : List (ℕ × Option V)
  received : ℕ

namespace StoreTask

/-- `Store::new`, with an empty database. -/
def new : StoreTask K V := ⟨Store.empty, fun _ => [], [], 0⟩

/-- The task receives a command. -/
def step (s : StoreTask K V) : StoreCommand K V → StoreTask K V
  | .write key value =>
      { db := s.db.insert key value
        obligations := Function.update s.obligations key []
        replies := s.replies ++ (s.obligations key).map fun sender => (sender, some value)
        received := s.received + 1 }
  | .read key =>
      { s with
        replies := s.replies ++ [(s.received, s.db key)]
        received := s.received + 1 }
  | .notifyRead key =>
      match s.db key with
      | none =>
          { s with
            obligations := Function.update s.obligations key (s.obligations key ++ [s.received])
            received := s.received + 1 }
      | some value =>
          { s with
            replies := s.replies ++ [(s.received, some value)]
            received := s.received + 1 }

/-- The task after some commands. -/
def run (commands : List (StoreCommand K V)) : StoreTask K V := commands.foldl step new

/-- The replies sent through a oneshot channel. -/
def repliesTo (s : StoreTask K V) (sender : ℕ) : List (Option V) :=
  (s.replies.filter fun reply => reply.1 = sender).map Prod.snd

lemma received_step (s : StoreTask K V) (c : StoreCommand K V) :
    (s.step c).received = s.received + 1 := by
  cases c with
  | write key value => rfl
  | read key => rfl
  | notifyRead key => cases h : s.db key <;> simp [step, h]

lemma received_run (commands : List (StoreCommand K V)) :
    (run commands).received = commands.length := by
  induction commands using List.reverseRecOn with
  | nil => rfl
  | append_singleton commands c ih =>
      rw [run, List.foldl_append, List.foldl_cons, List.foldl_nil, received_step,
        List.length_append, List.length_singleton]
      exact congrArg (· + 1) ih

lemma db_step (s : StoreTask K V) (c : StoreCommand K V) (key : K) :
    (s.step c).db key = (c.written key).or (s.db key) := by
  cases c with
  | write key' value =>
      by_cases h : key = key'
      · simp [step, StoreCommand.written, h]
      · simp [step, StoreCommand.written, h, Ne.symm h]
  | read key' => rfl
  | notifyRead key' => cases h : s.db key' <;> simp [step, h, StoreCommand.written]

/-- A key has the last value written to it. -/
lemma db_run (commands : List (StoreCommand K V)) (key : K) :
    (run commands).db key = lastWrite key commands := by
  induction commands using List.reverseRecOn with
  | nil => rfl
  | append_singleton commands c ih =>
      rw [run, List.foldl_append, List.foldl_cons, List.foldl_nil, db_step, ← run, ih]
      simp only [lastWrite, List.reverse_concat, List.findSome?_cons]
      cases c.written key <;> rfl

/-- What is stored stays stored. -/
lemma isSome_db_append {commands : List (StoreCommand K V)} {key : K}
    (h : ((run commands).db key).isSome) (more : List (StoreCommand K V)) :
    ((run (commands ++ more)).db key).isSome := by
  rw [db_run, isSome_lastWrite_eq] at h ⊢
  rw [firstWrite, List.findSome?_append, Option.isSome_or, ← firstWrite, h, Bool.true_or]

/-- A key is stored later only if it was before or has been written since. -/
lemma isSome_db_of_append {commands more : List (StoreCommand K V)} {key : K}
    (h : ((run (commands ++ more)).db key).isSome) :
    ((run commands).db key).isSome ∨ ∃ c ∈ more, (c.written key).isSome := by
  rw [db_run, isSome_lastWrite_eq, firstWrite, List.findSome?_append, Option.isSome_or,
    Bool.or_eq_true] at h
  refine h.imp (fun hold => ?_) List.findSome?_isSome_iff.mp
  rwa [db_run, isSome_lastWrite_eq]

/-! ### One oneshot channel -/

/-- The senders that wait for a key through a channel. -/
def waiting (s : StoreTask K V) (sender : ℕ) (key : K) : List ℕ :=
  (s.obligations key).filter (· = sender)

/-- A write empties the queue of its key; no other command concerns a channel that is
not its own. -/
lemma waiting_step {s : StoreTask K V} {sender : ℕ} (hne : s.received ≠ sender)
    (c : StoreCommand K V) (key : K) :
    (s.step c).waiting sender key =
      if (c.written key).isSome then [] else s.waiting sender key := by
  cases c with
  | write key' value =>
      by_cases h : key = key'
      · simp [waiting, step, StoreCommand.written, h]
      · simp [waiting, step, StoreCommand.written, h, Ne.symm h]
  | read key' => rfl
  | notifyRead key' =>
      cases hdb : s.db key' with
      | none =>
          by_cases h : key = key'
          · simp [waiting, step, StoreCommand.written, hdb, h, List.filter_append, hne]
          · simp [waiting, step, StoreCommand.written, hdb, h]
      | some value => simp [waiting, step, StoreCommand.written, hdb]

/-- Only a write sends through a channel that is not its own. -/
lemma repliesTo_step {s : StoreTask K V} {sender : ℕ} (hne : s.received ≠ sender)
    (c : StoreCommand K V) :
    (s.step c).repliesTo sender = s.repliesTo sender ++
      match c with
      | .write key value => (s.waiting sender key).map fun _ => some value
      | _ => [] := by
  cases c with
  | write key value =>
      simp only [repliesTo, step, List.filter_append, List.map_append, List.filter_map,
        List.map_map, waiting]
      rfl
  | read key => simp [repliesTo, step, hne]
  | notifyRead key => cases hdb : s.db key <;> simp [repliesTo, step, hdb, hne]

/-- A channel that waits for no key but one gets the first value written to it. -/
lemma repliesTo_foldl {s : StoreTask K V} {sender : ℕ} (hlt : sender < s.received) (key : K)
    (honly : ∀ key', key' ≠ key → s.waiting sender key' = [])
    (commands : List (StoreCommand K V)) :
    (commands.foldl step s).repliesTo sender = s.repliesTo sender ++
      (s.waiting sender key).flatMap fun _ => (firstWrite key commands).toList.map some := by
  induction commands generalizing s with
  | nil => simp [firstWrite]
  | cons c commands ih =>
      have hne : s.received ≠ sender := Nat.ne_of_gt hlt
      have honly' : ∀ key', key' ≠ key → (s.step c).waiting sender key' = [] := by
        intro key' hk
        rw [waiting_step hne, honly key' hk, ite_self]
      rw [List.foldl_cons, ih (by rw [received_step]; omega) honly', repliesTo_step hne,
        waiting_step hne, firstWrite, firstWrite, List.findSome?_cons]
      -- only the first write to the key reaches the channel, which waits for nothing afterwards
      cases c with
      | write key' value =>
          by_cases h : key' = key
          · simp [StoreCommand.written, h, List.map_eq_flatMap]
          · simp [StoreCommand.written, h, honly key' h]
      | read key' => simp [StoreCommand.written]
      | notifyRead key' => simp [StoreCommand.written]

/-- A channel that waits for no key gets no further reply. -/
lemma repliesTo_foldl_of_quiet {s : StoreTask K V} {sender : ℕ} (hlt : sender < s.received)
    (hquiet : ∀ key, s.waiting sender key = []) (commands : List (StoreCommand K V)) :
    (commands.foldl step s).repliesTo sender = s.repliesTo sender := by
  cases commands with
  | nil => rfl
  | cons c commands =>
      have key : K := match c with
        | .write key _ | .read key | .notifyRead key => key
      rw [repliesTo_foldl hlt key fun key' _ => hquiet key', hquiet key, List.flatMap_nil,
        List.append_nil]

/-! ### The replies to a command -/

/-- The channels of the commands to come have not been used. -/
structure Fresh (s : StoreTask K V) : Prop where
  waiting : ∀ sender, s.received ≤ sender → ∀ key, s.waiting sender key = []
  replies : ∀ sender, s.received ≤ sender → s.repliesTo sender = []

lemma Fresh.step {s : StoreTask K V} (h : s.Fresh) (c : StoreCommand K V) : (s.step c).Fresh := by
  refine ⟨fun sender hle key => ?_, fun sender hle => ?_⟩
  all_goals
    rw [received_step] at hle
    have hne : s.received ≠ sender := by omega
  · rw [waiting_step hne, h.waiting sender (by omega), ite_self]
  · rw [repliesTo_step hne, h.replies sender (by omega), List.nil_append]
    cases c with
    | write key value => simp [h.waiting sender (by omega)]
    | read key => rfl
    | notifyRead key => rfl

lemma fresh_run (commands : List (StoreCommand K V)) : (run commands : StoreTask K V).Fresh := by
  induction commands using List.reverseRecOn with
  | nil => exact ⟨fun _ _ _ => rfl, fun _ _ => rfl⟩
  | append_singleton commands c ih =>
      rw [run, List.foldl_append]
      exact ih.step c

/-- A command replies through its own channel at once, or waits there for its key. -/
lemma Fresh.repliesTo_foldl {s : StoreTask K V} (h : s.Fresh) (c : StoreCommand K V)
    (after : List (StoreCommand K V)) :
    ((c :: after).foldl StoreTask.step s).repliesTo s.received =
      match c with
      | .write _ _ => []
      | .read key => [s.db key]
      | .notifyRead key => ((s.db key).or (firstWrite key after)).toList.map some := by
  have hlt : s.received < (s.step c).received := by
    rw [received_step]
    exact Nat.lt_succ_self _
  have hwaiting := h.waiting s.received (Nat.le_refl _)
  have hreplies := h.replies s.received (Nat.le_refl _)
  rw [List.foldl_cons]
  cases c with
  | write key value =>
      have hempty : ∀ key', (s.step (.write key value)).waiting s.received key' = [] := by
        intro key'
        by_cases hk : key' = key
        · simp [StoreTask.waiting, StoreTask.step, hk]
        · simpa [StoreTask.waiting, StoreTask.step, hk] using hwaiting key'
      -- a write replies to those who wait, and its own channel is not among them
      have hsent : (s.step (.write key value)).repliesTo s.received = [] := by
        have hkey := hwaiting key
        simp only [repliesTo, StoreTask.waiting, StoreTask.step, List.filter_append,
          List.map_append, List.filter_map, List.map_map, List.append_eq_nil_iff,
          List.map_eq_nil_iff] at hreplies hkey ⊢
        exact ⟨hreplies, hkey⟩
      rw [repliesTo_foldl_of_quiet hlt hempty, hsent]
  | read key =>
      have hsent : (s.step (.read key)).repliesTo s.received =
          s.repliesTo s.received ++ [s.db key] := by
        simp [repliesTo, StoreTask.step]
      rw [repliesTo_foldl_of_quiet hlt hwaiting, hsent, hreplies, List.nil_append]
  | notifyRead key =>
      cases hdb : s.db key with
      | none =>
          -- nothing stored: the channel waits for this key from now on, and for no other
          have honly : ∀ key', key' ≠ key →
              (s.step (.notifyRead key)).waiting s.received key' = [] := by
            intro key' hk
            simpa [StoreTask.waiting, StoreTask.step, hdb, hk] using hwaiting key'
          have hone : (s.step (.notifyRead key)).waiting s.received key = [s.received] := by
            have hkey := hwaiting key
            simp only [StoreTask.waiting] at hkey
            simp [StoreTask.waiting, StoreTask.step, hdb, List.filter_append, hkey]
          have hsent : (s.step (.notifyRead key)).repliesTo s.received =
              s.repliesTo s.received := by
            simp [repliesTo, StoreTask.step, hdb]
          rw [StoreTask.repliesTo_foldl hlt key honly, hone, hsent, hreplies]
          simp [hdb]
      | some value =>
          have hempty : ∀ key', (s.step (.notifyRead key)).waiting s.received key' = [] := by
            intro key'
            simpa [StoreTask.waiting, StoreTask.step, hdb] using hwaiting key'
          have hsent : (s.step (.notifyRead key)).repliesTo s.received =
              s.repliesTo s.received ++ [some value] := by
            simp [repliesTo, StoreTask.step, hdb]
          rw [repliesTo_foldl_of_quiet hlt hempty, hsent, hreplies]
          simp [hdb]

/-- **No reply is lost, repeated or stale.** Whatever the tasks of a node send to the
store, in whatever order: a `read` is answered at once, with the last value written to
its key. A `notify_read` is answered exactly once, at once if the key has been written
and otherwise with the first value written to it afterwards; until then it is not
answered. -/
theorem repliesTo_run (before after : List (StoreCommand K V)) (c : StoreCommand K V) :
    (run (before ++ c :: after)).repliesTo before.length = c.owed before after := by
  have hfresh : (run before : StoreTask K V).Fresh := fresh_run before
  rw [run, List.foldl_append, ← run, ← received_run before, hfresh.repliesTo_foldl]
  cases c with
  | write key value => rfl
  | read key => simp only [StoreCommand.owed, db_run]
  | notifyRead key => simp only [StoreCommand.owed, db_run]

/-- A `notify_read` has been answered as soon as its key is stored. -/
lemma answered_iff (before after : List (StoreCommand K V)) (key : K) :
    (run (before ++ .notifyRead key :: after)).repliesTo before.length ≠ [] ↔
      ((run (before ++ .notifyRead key :: after)).db key).isSome := by
  have hfirst : firstWrite key (before ++ .notifyRead key :: after) =
      (firstWrite key before).or (firstWrite key after) := by
    rw [firstWrite, List.findSome?_append]
    rfl
  have hreplies : (run (before ++ .notifyRead key :: after)).repliesTo before.length =
      (((run before).db key).or (firstWrite key after)).toList.map some := by
    rw [run, List.foldl_append, ← run, ← received_run before]
    exact (fresh_run before).repliesTo_foldl (.notifyRead key) after
  -- whether there is a first write is whether there is a last one
  rw [hreplies, db_run, db_run, isSome_lastWrite_eq, hfirst, Option.isSome_or,
    ← isSome_lastWrite_eq, ← Option.isSome_or]
  cases (lastWrite key before).or (firstWrite key after) <;> simp

/-- The `notify_read` received after `n` commands. -/
lemma answered_iff_getElem? {commands : List (StoreCommand K V)} {n : ℕ} {key : K}
    (h : commands[n]? = some (.notifyRead key)) :
    (run commands).repliesTo n ≠ [] ↔ ((run commands).db key).isSome := by
  obtain ⟨hn, hkey⟩ := List.getElem?_eq_some_iff.mp h
  have hsplit : commands = commands.take n ++ .notifyRead key :: commands.drop (n + 1) := by
    rw [← hkey, List.getElem_cons_drop, List.take_append_drop]
  have hlength : (commands.take n).length = n := List.length_take_of_le (Nat.le_of_lt hn)
  have hanswered := answered_iff (commands.take n) (commands.drop (n + 1)) key
  rwa [← hsplit, hlength] at hanswered

end StoreTask

end StablecoinSystem.Storage
