import Mathlib.Algebra.Ring.Nat
import Mathlib.Data.List.AList
import Mathlib.Data.List.Sort
import StablecoinSystem.Support.Loop
import StablecoinSystem.Support.Traversal

/-!
The certificates of Narwhal and the local state of `MP3Consensus`
(`config/src/lib.rs`, `primary/src/messages.rs`, `consensus/src/mp3bft.rs`).

The source keeps the dag as a map from rounds to maps from authorities to
certificates with their digests. Here it is the list of the certificates, each
found under its own round and origin; a round that has no certificate is a
round that has no entry.

Stakes are `u32` and rounds `u64`. Their sums wrap, as they do in a release
build; a build with overflow checks panics instead.

* `update_eq_some`: `State::update` keeps exactly the certificates that are
  `live` afterwards, if it returns;
* `update_of_fits`: it returns unless a sum overflows.
-/

namespace StablecoinSystem

/-- `Committee`: the authorities by name, with their stakes, in the order of
the `BTreeMap`. -/
structure Committee where
  authorities : List (ℕ × ℕ)
  sorted : (authorities.map Prod.fst).Pairwise (· < ·)

namespace Committee

variable (committee : Committee)

/-- The names of the authorities, in order. -/
def keys : List ℕ := committee.authorities.map Prod.fst

def size : ℕ := committee.authorities.length

/-- The stake of an authority, zero for a stranger. -/
def stake (name : ℕ) : ℕ := (committee.authorities.lookup name).getD 0

/-- The stakes of all authorities together. -/
def totalStake : ℕ := (committee.authorities.map Prod.snd).sum

/-- `total_votes`. -/
def totalVotes : ℕ := committee.totalStake % 2 ^ 32

def quorumThreshold : ℕ := 2 * committee.totalVotes % 2 ^ 32 / 3 + 1

def validityThreshold : ℕ := (committee.totalVotes + 2) % 2 ^ 32 / 3

/-- No sum of stakes overflows, not even twice the sum of all. -/
def Fits : Prop := 2 * committee.totalStake < 2 ^ 32

instance : Decidable committee.Fits := inferInstanceAs (Decidable (_ < _))

end Committee

/-- `Certificate`, with what the consensus reads of its header. The parents are
a `BTreeSet` of digests. -/
structure Certificate where
  id : ℕ
  round : ℕ
  origin : ℕ
  parents : List ℕ
  sorted : parents.Pairwise (· < ·)
  deriving DecidableEq

namespace Certificate

/-- `PartialEq` for certificates. -/
def eq (a b : Certificate) : Bool := a.id == b.id && a.round == b.round && a.origin == b.origin

lemma eq_iff {a b : Certificate} :
    a.eq b = true ↔ a.id = b.id ∧ a.round = b.round ∧ a.origin = b.origin := by
  simp only [eq, Bool.and_eq_true, beq_iff_eq, and_assoc]

/-- The order of `sort_by_key` on rounds. -/
def roundLe (a b : Certificate) : Prop := a.round ≤ b.round

instance : DecidableRel roundLe := fun a b => inferInstanceAs (Decidable (a.round ≤ b.round))

instance : Std.Total roundLe := ⟨fun a b => le_total a.round b.round⟩

instance : IsTrans Certificate roundLe := ⟨fun _ _ _ hab hbc => le_trans hab hbc⟩

/-- The certificates of round zero, one for each authority. -/
def genesis (committee : Committee) : List Certificate :=
  committee.keys.map fun name => ⟨0, 0, name, [], List.Pairwise.nil⟩

lemma round_of_mem_genesis {committee : Committee} {c : Certificate}
    (h : c ∈ genesis committee) : c.round = 0 := by
  obtain ⟨name, -, rfl⟩ := List.mem_map.mp h
  rfl

end Certificate

/-- `SlotQC`: the slot leaders of a round that have enough support. -/
structure SlotQC where
  round : ℕ
  leaders : List Certificate
  deriving DecidableEq

/-- `MacroBlock`: a prepared leader round. -/
structure MacroBlock where
  height : ℕ
  round : ℕ
  slotQc : SlotQC
  deriving DecidableEq

/-- `State`. -/
structure State where
  lastCommittedRound : ℕ
  lastCommitted : AList fun _ : ℕ => ℕ
  dag : List Certificate
  preparedChain : List MacroBlock
  nextHeight : ℕ

/-! ### The dag -/

/-- Insert a certificate under its round and origin. -/
def insertCertificate (c : Certificate) (dag : List Certificate) : List Certificate :=
  c :: dag.filter fun x => ¬(x.round = c.round ∧ x.origin = c.origin)

/-- The certificates of a round. -/
def atRound (round : ℕ) (dag : List Certificate) : List Certificate :=
  dag.filter fun c => c.round = round

/-- The certificate of an authority in a round. -/
def certificateOf (round name : ℕ) (dag : List Certificate) : Option Certificate :=
  (atRound round dag).find? fun c => c.origin = name

@[simp] lemma mem_atRound {c : Certificate} {round : ℕ} {dag : List Certificate} :
    c ∈ atRound round dag ↔ c ∈ dag ∧ c.round = round := by
  simp [atRound]

lemma mem_insertCertificate {c x : Certificate} {dag : List Certificate} :
    x ∈ insertCertificate c dag ↔ x = c ∨ x ∈ dag ∧ ¬(x.round = c.round ∧ x.origin = c.origin) := by
  simp only [insertCertificate, List.mem_cons, List.mem_filter, decide_eq_true_eq]

/-- What is inserted does not change the other rounds, and changes its own in
the same way whatever is in the others. -/
lemma atRound_insertCertificate {dag dag' : List Certificate} {round : ℕ}
    (h : atRound round dag = atRound round dag') (c : Certificate) :
    atRound round (insertCertificate c dag) = atRound round (insertCertificate c dag') := by
  have hcomm : ∀ dag : List Certificate, atRound round (insertCertificate c dag) =
      atRound round [c] ++
        (atRound round dag).filter fun x => ¬(x.round = c.round ∧ x.origin = c.origin) := by
    intro dag
    rw [insertCertificate, ← List.singleton_append, atRound, List.filter_append, atRound, atRound,
      List.filter_comm]
  rw [hcomm, hcomm, h]

lemma mem_of_certificateOf {c : Certificate} {round name : ℕ} {dag : List Certificate}
    (h : certificateOf round name dag = some c) : c ∈ dag ∧ c.round = round ∧ c.origin = name := by
  have hmem := mem_atRound.mp (List.mem_of_find?_eq_some h)
  have horigin := List.find?_some h
  exact ⟨hmem.1, hmem.2, of_decide_eq_true horigin⟩

/-! ### The depth of the garbage collector -/

/-- `round + gc_depth`. -/
def addDepth (gcDepth round : ℕ) : ℕ := (round + gcDepth) % 2 ^ 64

lemma addDepth_of_lt {gcDepth round : ℕ} (h : round + gcDepth < 2 ^ 64) :
    addDepth gcDepth round = round + gcDepth :=
  Nat.mod_eq_of_lt h

/-- Retain the certificates that are within the depth of the garbage collector.
`none` is a panic: with overflow checks, a sum has overflowed. -/
def retainDepth (overflowChecks : Bool) (gcDepth lastCommittedRound : ℕ)
    (certificates : List Certificate) : Option (List Certificate) :=
  if overflowChecks && certificates.any (fun c => 2 ^ 64 ≤ c.round + gcDepth) then none
  else some (certificates.filter fun c => lastCommittedRound ≤ addDepth gcDepth c.round)

section RetainDepth

variable {overflowChecks : Bool} {gcDepth lastCommittedRound : ℕ}
  {certificates kept : List Certificate}

lemma retainDepth_eq_some
    (h : retainDepth overflowChecks gcDepth lastCommittedRound certificates = some kept) :
    kept = certificates.filter fun c => lastCommittedRound ≤ addDepth gcDepth c.round := by
  rw [retainDepth] at h
  split at h
  · cases h
  · exact (Option.some.inj h).symm

lemma retainDepth_of_fits
    (hfits : overflowChecks = true → ∀ c ∈ certificates, c.round + gcDepth < 2 ^ 64) :
    retainDepth overflowChecks gcDepth lastCommittedRound certificates =
      some (certificates.filter fun c => lastCommittedRound ≤ addDepth gcDepth c.round) := by
  refine if_neg fun hpanics => ?_
  obtain ⟨hchecks, hany⟩ := Bool.and_eq_true_iff.mp hpanics
  obtain ⟨c, hc, hover⟩ := List.any_eq_true.mp hany
  have hlt := hfits hchecks c hc
  rw [decide_eq_true_eq] at hover
  omega

end RetainDepth

namespace State

/-- `State::new`. -/
def new (genesis : List Certificate) : State where
  lastCommittedRound := 0
  lastCommitted := genesis.foldl (fun m c => m.insert c.origin c.round) ∅
  dag := genesis
  preparedChain := []
  nextHeight := 0

/-- The last committed rounds once `certificate` is committed. -/
def commitRound (s : State) (certificate : Certificate) : AList fun _ : ℕ => ℕ :=
  match s.lastCommitted.lookup certificate.origin with
  | some r => s.lastCommitted.insert certificate.origin (max r certificate.round)
  | none => s.lastCommitted.insert certificate.origin certificate.round

/-- `dag.retain` in `State::update`, for the last committed round of one
authority. -/
def retain (overflowChecks : Bool) (gcDepth lastCommittedRound : ℕ) (dag : List Certificate)
    (entry : Σ _ : ℕ, ℕ) : Option (List Certificate) :=
  retainDepth overflowChecks gcDepth lastCommittedRound
    (dag.filter fun c => c.origin ≠ entry.1 ∨ entry.2 ≤ c.round)

/-- `State::update`; `none` if its `unwrap` fails, or `r + gc_depth` overflows and
that is checked. -/
def update (s : State) (overflowChecks : Bool) (gcDepth : ℕ) (certificate : Certificate) :
    Option State :=
  let lastCommitted := s.commitRound certificate
  match (lastCommitted.entries.map Sigma.snd).max? with
  | none => none
  | some lastCommittedRound =>
      (lastCommitted.entries.foldlM (retain overflowChecks gcDepth lastCommittedRound) s.dag).map
        fun dag =>
          { s with
            lastCommitted := lastCommitted
            lastCommittedRound := lastCommittedRound
            dag := dag }

/-- No later certificate of the same origin has been committed, and the round
is within the depth of the garbage collector. -/
def live (s : State) (gcDepth : ℕ) (c : Certificate) : Bool :=
  ((s.lastCommitted.lookup c.origin).all fun r => decide (r ≤ c.round)) &&
    decide (s.lastCommittedRound ≤ addDepth gcDepth c.round)

/-- The last committed round is the largest of the last committed rounds of
the authorities. -/
structure Wf (s : State) : Prop where
  bounded : ∀ name r, s.lastCommitted.lookup name = some r → r ≤ s.lastCommittedRound
  attained : s.lastCommittedRound = 0 ∨ ∃ name, s.lastCommitted.lookup name =
    some s.lastCommittedRound

/-- The last committed rounds and the dag once `c` is committed. -/
def commit (s : State) (gcDepth : ℕ) (c : Certificate) : State :=
  let s' : State :=
    { s with
      lastCommitted := s.commitRound c
      lastCommittedRound := max s.lastCommittedRound c.round }
  { s' with dag := s.dag.filter (s'.live gcDepth) }

variable {s : State} {overflowChecks : Bool} {gcDepth : ℕ} {c x : Certificate}

lemma live_iff : s.live gcDepth c = true ↔
    (∀ r, s.lastCommitted.lookup c.origin = some r → r ≤ c.round) ∧
      s.lastCommittedRound ≤ addDepth gcDepth c.round := by
  simp [live, Option.all_eq_true]

lemma lookup_commitRound_self (s : State) (c : Certificate) :
    (s.commitRound c).lookup c.origin =
      some (max ((s.lastCommitted.lookup c.origin).getD 0) c.round) := by
  rw [commitRound]
  cases s.lastCommitted.lookup c.origin with
  | none => simp
  | some r => simp

lemma lookup_commitRound_of_ne {name : ℕ} (h : name ≠ c.origin) :
    (s.commitRound c).lookup name = s.lastCommitted.lookup name := by
  rw [commitRound]
  split <;> exact AList.lookup_insert_ne h

/-- The last committed round of an authority does not decrease. -/
lemma exists_le_lookup_commitRound {name r : ℕ} (h : s.lastCommitted.lookup name = some r)
    (c : Certificate) : ∃ r', (s.commitRound c).lookup name = some r' ∧ r ≤ r' := by
  by_cases hname : name = c.origin
  · subst hname
    refine ⟨_, lookup_commitRound_self s c, ?_⟩
    rw [h]
    exact le_max_left _ _
  · exact ⟨r, (lookup_commitRound_of_ne hname).trans h, le_refl r⟩

/-- The last committed round of an authority afterwards is the one before, or
the round of the certificate. -/
lemma lookup_commitRound_cases {name r : ℕ} (h : (s.commitRound c).lookup name = some r) :
    s.lastCommitted.lookup name = some r ∨ name = c.origin ∧ r = c.round := by
  by_cases hname : name = c.origin
  · subst hname
    rw [lookup_commitRound_self] at h
    cases hold : s.lastCommitted.lookup c.origin with
    | none =>
        rw [hold] at h
        right
        simpa using h.symm
    | some r₀ =>
        rw [hold] at h
        simp only [Option.getD_some, Option.some.injEq] at h
        rcases max_choice r₀ c.round with hmax | hmax
        · left
          rw [← h, hmax]
        · exact Or.inr ⟨rfl, h.symm.trans hmax⟩
  · exact Or.inl ((lookup_commitRound_of_ne hname).symm.trans h)

lemma mem_values {m : AList fun _ : ℕ => ℕ} {r : ℕ} :
    r ∈ m.entries.map Sigma.snd ↔ ∃ name, m.lookup name = some r := by
  simp only [List.mem_map, Sigma.exists, exists_eq_right, ← AList.mem_lookup_iff, Option.mem_def]

/-- The largest of the last committed rounds after a commit is attained. -/
lemma exists_lookup_commitRound (hs : s.Wf) (c : Certificate) :
    ∃ name, (s.commitRound c).lookup name = some (max s.lastCommittedRound c.round) := by
  rcases le_or_gt s.lastCommittedRound c.round with hle | hlt
  · refine ⟨c.origin, (lookup_commitRound_self s c).trans ?_⟩
    have hget : (s.lastCommitted.lookup c.origin).getD 0 ≤ c.round := by
      cases hold : s.lastCommitted.lookup c.origin with
      | none => exact Nat.zero_le _
      | some r => exact le_trans (hs.bounded _ r hold) hle
    rw [max_eq_right hget, max_eq_right hle]
  · rcases hs.attained with hzero | ⟨name, hname⟩
    · omega
    · rw [max_eq_left hlt.le]
      by_cases horigin : name = c.origin
      · refine ⟨name, ?_⟩
        rw [horigin, lookup_commitRound_self, ← horigin, hname]
        exact congrArg some (max_eq_left hlt.le)
      · exact ⟨name, (lookup_commitRound_of_ne horigin).trans hname⟩

lemma bounded_commitRound (hs : s.Wf) {name r : ℕ} (h : (s.commitRound c).lookup name = some r) :
    r ≤ max s.lastCommittedRound c.round := by
  rcases lookup_commitRound_cases h with hold | ⟨-, rfl⟩
  · exact le_max_of_le_left (hs.bounded name r hold)
  · exact le_max_right _ _

lemma wf_commit (hs : s.Wf) (gcDepth : ℕ) (c : Certificate) : (s.commit gcDepth c).Wf where
  bounded := fun _ _ h => bounded_commitRound hs h
  attained := Or.inr (exists_lookup_commitRound hs c)

/-- The last committed rounds of a new state are those of the genesis. -/
lemma lookup_new {genesis : List Certificate} {name r : ℕ}
    (h : (new genesis).lastCommitted.lookup name = some r) :
    ∃ c ∈ genesis, c.origin = name ∧ c.round = r := by
  have hinv := foldl_induction (l := genesis) (b := (∅ : AList fun _ : ℕ => ℕ))
    (f := fun m c => m.insert c.origin c.round)
    (I := fun pre m => ∀ r, m.lookup name = some r → ∃ c ∈ pre, c.origin = name ∧ c.round = r)
    (fun r hr => by cases hr) ?_
  · exact hinv r h
  intro pre c post _ hpre r hr
  by_cases hname : name = c.origin
  · subst hname
    rw [AList.lookup_insert] at hr
    exact ⟨c, by simp, rfl, Option.some.inj hr⟩
  · rw [AList.lookup_insert_ne hname] at hr
    obtain ⟨c', hc', heq⟩ := hpre r hr
    exact ⟨c', List.mem_append_left _ hc', heq⟩

section Retain

variable {lastCommittedRound : ℕ} {entries : List (Σ _ : ℕ, ℕ)} {dag dag' : List Certificate}

/-- What is retained for all of the given entries. -/
def retained (gcDepth lastCommittedRound : ℕ) (entries : List (Σ _ : ℕ, ℕ))
    (dag : List Certificate) : List Certificate :=
  dag.filter fun c => entries.all fun entry =>
    (c.origin ≠ entry.1 ∨ entry.2 ≤ c.round) ∧ lastCommittedRound ≤ addDepth gcDepth c.round

lemma retained_cons (gcDepth lastCommittedRound : ℕ) (entry : Σ _ : ℕ, ℕ)
    (entries : List (Σ _ : ℕ, ℕ)) (dag : List Certificate) :
    retained gcDepth lastCommittedRound (entry :: entries) dag =
      retained gcDepth lastCommittedRound entries
        ((dag.filter fun c => c.origin ≠ entry.1 ∨ entry.2 ≤ c.round).filter fun c =>
          lastCommittedRound ≤ addDepth gcDepth c.round) := by
  simp only [retained, List.filter_filter, List.all_cons]
  refine List.filter_congr fun c _ => ?_
  rw [Bool.decide_and, Bool.and_comm, Bool.and_comm (decide (lastCommittedRound ≤ _))]

/-- Retaining, entry after entry, is retaining for all entries. -/
lemma foldlM_retain_eq_some
    (h : entries.foldlM (retain overflowChecks gcDepth lastCommittedRound) dag = some dag') :
    dag' = retained gcDepth lastCommittedRound entries dag := by
  induction entries generalizing dag with
  | nil =>
      cases h
      exact (List.filter_eq_self.mpr fun _ _ => rfl).symm
  | cons entry entries ih =>
      obtain ⟨kept, hkept, hrest⟩ := foldlM_cons_eq_some.mp h
      rw [retained_cons, ← retainDepth_eq_some hkept]
      exact ih hrest

lemma foldlM_retain_of_fits
    (hfits : overflowChecks = true → ∀ x ∈ dag, x.round + gcDepth < 2 ^ 64) :
    entries.foldlM (retain overflowChecks gcDepth lastCommittedRound) dag =
      some (retained gcDepth lastCommittedRound entries dag) := by
  induction entries generalizing dag with
  | nil => exact congrArg some (List.filter_eq_self.mpr fun _ _ => rfl).symm
  | cons entry entries ih =>
      have hkept : overflowChecks = true →
          ∀ x ∈ dag.filter (fun c => c.origin ≠ entry.1 ∨ entry.2 ≤ c.round),
            x.round + gcDepth < 2 ^ 64 :=
        fun hchecks x hx => hfits hchecks x (List.mem_of_mem_filter hx)
      rw [foldlM_cons_eq_some, retained_cons]
      exact ⟨_, retainDepth_of_fits hkept,
        ih fun hchecks x hx => hkept hchecks x (List.mem_of_mem_filter hx)⟩

end Retain

/-- The largest of the last committed rounds after a commit. -/
lemma max?_commitRound (hs : s.Wf) (c : Certificate) :
    ((s.commitRound c).entries.map Sigma.snd).max? = some (max s.lastCommittedRound c.round) := by
  rw [List.max?_eq_some_iff]
  refine ⟨mem_values.mpr (exists_lookup_commitRound hs c), fun r hr => ?_⟩
  obtain ⟨name, hname⟩ := mem_values.mp hr
  exact bounded_commitRound hs hname

/-- What is retained for all authorities are the certificates that are live
afterwards. -/
lemma retained_commitRound (hs : s.Wf) (gcDepth : ℕ) (c : Certificate) :
    retained gcDepth (max s.lastCommittedRound c.round) (s.commitRound c).entries s.dag =
      (s.commit gcDepth c).dag := by
  refine List.filter_congr fun x _ => Bool.eq_iff_iff.mpr ?_
  simp only [List.all_eq_true, decide_eq_true_eq, live_iff]
  constructor
  · intro h
    obtain ⟨name, hname⟩ := exists_lookup_commitRound hs c
    refine ⟨fun r hr => ?_, (h _ (AList.mem_lookup_iff.mp hname)).2⟩
    exact (h _ (AList.mem_lookup_iff.mp hr)).1.resolve_left fun hne => hne rfl
  · rintro ⟨hround, hdepth⟩ ⟨name, r⟩ hentry
    refine ⟨?_, hdepth⟩
    by_cases hname : x.origin = name
    · subst hname
      exact Or.inr (hround r (AList.mem_lookup_iff.mpr hentry))
    · exact Or.inl hname

/-- **`State::update` keeps the certificates that are live afterwards**, if it
returns. -/
theorem update_eq_some (hs : s.Wf) {s' : State}
    (h : s.update overflowChecks gcDepth c = some s') : s' = s.commit gcDepth c := by
  simp only [update, max?_commitRound hs] at h
  obtain ⟨dag, hdag, rfl⟩ := Option.map_eq_some_iff.mp h
  rw [foldlM_retain_eq_some hdag, retained_commitRound hs]
  rfl

/-- **`State::update` returns** unless `r + gc_depth` overflows for a round of the
dag and that is checked. -/
theorem update_of_fits (hs : s.Wf)
    (hfits : overflowChecks = true → ∀ x ∈ s.dag, x.round + gcDepth < 2 ^ 64) (c : Certificate) :
    s.update overflowChecks gcDepth c = some (s.commit gcDepth c) := by
  simp only [update, max?_commitRound hs, foldlM_retain_of_fits hfits, retained_commitRound hs]
  rfl

@[simp] lemma mem_commit : x ∈ (s.commit gcDepth c).dag ↔
    x ∈ s.dag ∧ (s.commit gcDepth c).live gcDepth x = true :=
  List.mem_filter

/-- Committing does not touch the rounds above the last committed one. -/
lemma atRound_commit (hs : s.Wf) {round : ℕ}
    (hfits : ∀ x ∈ s.dag, x.round = round → round + gcDepth < 2 ^ 64)
    (h : max s.lastCommittedRound c.round < round) :
    atRound round (s.commit gcDepth c).dag = atRound round s.dag := by
  simp only [atRound, commit, List.filter_filter]
  refine List.filter_congr fun x hx => ?_
  by_cases hround : x.round = round
  · have hlive : (s.commit gcDepth c).live gcDepth x = true := by
      refine live_iff.mpr ⟨fun r hr => ?_, ?_⟩
      · have := bounded_commitRound hs hr
        omega
      · change max s.lastCommittedRound c.round ≤ _
        rw [hround, addDepth_of_lt (hfits x hx hround)]
        omega
    simp only [hround, decide_true, Bool.true_and]
    exact hlive
  · simp [hround]

/-- What a commit keeps was live before it. -/
lemma live_of_live_commit (h : (s.commit gcDepth c).live gcDepth x = true) :
    s.live gcDepth x = true := by
  obtain ⟨hround, hdepth⟩ := live_iff.mp h
  refine live_iff.mpr ⟨fun r hr => ?_, le_trans (le_max_left _ _) hdepth⟩
  obtain ⟨r', hr', hle⟩ := exists_le_lookup_commitRound hr c
  exact le_trans hle (hround r' hr')

@[simp] lemma lastCommittedRound_commit :
    (s.commit gcDepth c).lastCommittedRound = max s.lastCommittedRound c.round := rfl

@[simp] lemma lastCommitted_commit : (s.commit gcDepth c).lastCommitted = s.commitRound c := rfl

end State

end StablecoinSystem
