import StablecoinSystem.Narwhal.DagMap

/-!
The map of `consensus/src/mp3bft.rs` and the list of certificates that stands for it
in the model of `run`.

* `Represents`: the map holds the certificates of the list, by round and origin, and
  has no empty entry;
* `Represents.new`, `Represents.insertCertificate`, `Represents.update`: what `run`
  does to the one is what the model does to the other;
* `Represents.certificateOf_eq`, `Represents.support_eq`, `Represents.linked_eq`,
  `Represents.orderDag_eq`: what is read of the one is what is read of the other;
* `represents_of_sameSteps`, `exists_represents_run`: the list of every state that
  `run` reaches stands for the map that the same operations leave;
* `stored_of_sameSteps`: what such a map stores.
-/

namespace StablecoinSystem

namespace DagMap

variable (dag : DagMap)

/-- The entry of an authority in a round. -/
def certificateOf (round name : ℕ) : Option (ℕ × Certificate) :=
  (dag.lookup round).bind fun authorities => authorities.lookup name

/-- The certificates of a genesis by their origins, with their digests. -/
def collect (digest : Certificate → ℕ) (genesis : List Certificate) :
    AList fun _ : ℕ => ℕ × Certificate :=
  genesis.foldl (fun authorities x => authorities.insert x.origin (digest x, x)) ∅

/-- The dag of `State::new`. -/
def new (digest : Certificate → ℕ) (genesis : List Certificate) : DagMap :=
  AList.insert 0 (collect digest genesis) ∅

/-- `authorities.retain`. -/
def retainAuthorities (keep : ℕ → Bool) (authorities : AList fun _ : ℕ => ℕ × Certificate) :
    AList fun _ : ℕ => ℕ × Certificate :=
  ⟨authorities.entries.filter fun e => keep e.1,
    authorities.nodupKeys.sublist List.filter_sublist⟩

/-- The rounds that have certificates once those of one authority below its last
committed round are gone. -/
def retainRounds (name lastRound : ℕ) : DagMap :=
  ⟨(dag.entries.map (.map id fun r => retainAuthorities fun n =>
      decide (n ≠ name ∨ lastRound ≤ r))).filter fun entry => !entry.2.entries.isEmpty,
    (dag.nodupKeys.map₂ _ _).sublist List.filter_sublist⟩

/-- The rounds that are within the depth of the garbage collector. -/
def withinDepth (gcDepth lastCommittedRound : ℕ) : DagMap :=
  ⟨dag.entries.filter fun entry => decide (lastCommittedRound ≤ addDepth gcDepth entry.1),
    dag.nodupKeys.sublist List.filter_sublist⟩

/-- `dag.retain` in `State::update`, for the last committed round of one authority. The
depth is added to the rounds that have certificates left. -/
def retain (overflowChecks : Bool) (gcDepth lastCommittedRound : ℕ) (dag : DagMap)
    (entry : Σ _ : ℕ, ℕ) : Option DagMap :=
  if overflowChecks && (dag.retainRounds entry.1 entry.2).keys.any fun round =>
      2 ^ 64 ≤ round + gcDepth then none
  else some ((dag.retainRounds entry.1 entry.2).withinDepth gcDepth lastCommittedRound)

/-- The loop of `State::update` over the last committed rounds. -/
def update (overflowChecks : Bool) (lastCommitted : AList fun _ : ℕ => ℕ)
    (lastCommittedRound gcDepth : ℕ) : Option DagMap :=
  lastCommitted.entries.foldlM (retain overflowChecks gcDepth lastCommittedRound) dag

/-- The stake in a round behind a leader, given its digest. -/
def support (committee : Committee) (round leaderDigest : ℕ) : ℕ :=
  ((dag.values round).map fun certificates => ((certificates.filter fun e =>
    leaderDigest ∈ e.2.parents).map fun e => committee.stake e.2.origin).sum).getD 0 % 2 ^ 32

variable {dag} {round name : ℕ} {e : ℕ × Certificate} {c x : Certificate}
  {authorities : AList fun _ : ℕ => ℕ × Certificate}

lemma mem_stored_iff_certificateOf :
    e ∈ dag.stored ↔ ∃ round name, dag.certificateOf round name = some e := by
  simp only [mem_stored_iff', certificateOf, Option.bind_eq_some_iff]
  constructor
  · rintro ⟨round, authorities, name, hround, hname⟩
    exact ⟨round, name, authorities, hround, hname⟩
  · rintro ⟨round, name, authorities, hround, hname⟩
    exact ⟨round, authorities, name, hround, hname⟩

/-! ### What the operations store -/

lemma lookup_collect {digest : Certificate → ℕ} {genesis : List Certificate}
    (horigins : (genesis.map Certificate.origin).Nodup) :
    (collect digest genesis).lookup name = some e ↔
      e.2 ∈ genesis ∧ e.2.origin = name ∧ e.1 = digest e.2 := by
  have hinv := foldl_induction (l := genesis) (b := (∅ : AList fun _ : ℕ => ℕ × Certificate))
    (f := fun authorities x => authorities.insert x.origin (digest x, x))
    (I := fun pre authorities => ∀ name e, authorities.lookup name = some e ↔
      e.2 ∈ pre ∧ e.2.origin = name ∧ e.1 = digest e.2)
    (fun _ _ => iff_of_false (fun h => nomatch h) fun h => absurd h.1 List.not_mem_nil) ?_
  · exact hinv name e
  intro pre x post hsplit hpre name e
  rw [List.mem_append, List.mem_singleton]
  by_cases hname : name = x.origin
  · subst hname
    rw [AList.lookup_insert]
    constructor
    · rintro ⟨⟩
      exact ⟨Or.inr rfl, rfl, rfl⟩
    · rintro ⟨hmem | heq, horigin, hdigest⟩
      · -- no other has the origin
        rw [hsplit, List.map_append, List.map_cons] at horigins
        exact absurd horigin ((List.nodup_append.mp horigins).2.2 _ (List.mem_map_of_mem hmem) _
          (List.mem_cons_self ..))
      · rw [← heq, ← hdigest]
  · rw [AList.lookup_insert_ne hname, hpre]
    constructor
    · rintro ⟨hmem, h⟩
      exact ⟨Or.inl hmem, h⟩
    · rintro ⟨hmem | rfl, horigin, hdigest⟩
      · exact ⟨hmem, horigin, hdigest⟩
      · exact absurd horigin.symm hname

lemma lookup_insertCertificate (dag : DagMap) (digest : ℕ) (c : Certificate) :
    (dag.insertCertificate digest c).lookup c.round =
      some (((dag.lookup c.round).getD ∅).insert c.origin (digest, c)) :=
  AList.lookup_insert _

lemma lookup_insertCertificate_of_ne {digest : ℕ} (h : round ≠ c.round) :
    (dag.insertCertificate digest c).lookup round = dag.lookup round :=
  AList.lookup_insert_ne h

lemma certificateOf_insertCertificate (dag : DagMap) (digest : ℕ) (c : Certificate)
    (round name : ℕ) :
    (dag.insertCertificate digest c).certificateOf round name =
      if round = c.round ∧ name = c.origin then some (digest, c)
      else dag.certificateOf round name := by
  rw [certificateOf, certificateOf]
  by_cases hround : round = c.round
  · subst hround
    rw [lookup_insertCertificate, Option.bind_some]
    by_cases hname : name = c.origin
    · subst hname
      rw [AList.lookup_insert, if_pos ⟨rfl, rfl⟩]
    · rw [AList.lookup_insert_ne hname, if_neg fun h => hname h.2]
      cases dag.lookup c.round with
      | none => rfl
      | some authorities => rfl
  · rw [lookup_insertCertificate_of_ne hround, if_neg fun h => hround h.1]

lemma lookup_retainAuthorities {keep : ℕ → Bool} :
    (retainAuthorities keep authorities).lookup name = some e ↔
      authorities.lookup name = some e ∧ keep name = true := by
  rw [← Option.mem_def, AList.mem_lookup_iff, ← Option.mem_def, AList.mem_lookup_iff]
  exact List.mem_filter

lemma lookup_retainRounds {origin lastRound : ℕ} :
    (dag.retainRounds origin lastRound).lookup round = some authorities ↔
      (∃ before, dag.lookup round = some before ∧
        authorities = retainAuthorities (fun n => decide (n ≠ origin ∨ lastRound ≤ round)) before) ∧
      authorities.entries ≠ [] := by
  rw [← Option.mem_def, AList.mem_lookup_iff]
  simp only [retainRounds, List.mem_filter, List.mem_map, Bool.not_eq_true',
    List.isEmpty_eq_false_iff]
  refine and_congr ?_ Iff.rfl
  constructor
  · rintro ⟨⟨r, before⟩, hmem, heq⟩
    cases heq
    exact ⟨before, AList.mem_lookup_iff.mpr hmem, rfl⟩
  · rintro ⟨before, hbefore, rfl⟩
    exact ⟨⟨round, before⟩, AList.mem_lookup_iff.mp hbefore, rfl⟩

lemma certificateOf_retainRounds {origin lastRound : ℕ} :
    (dag.retainRounds origin lastRound).certificateOf round name = some e ↔
      dag.certificateOf round name = some e ∧ (name ≠ origin ∨ lastRound ≤ round) := by
  simp only [certificateOf, Option.bind_eq_some_iff]
  constructor
  · rintro ⟨authorities, hround, hname⟩
    obtain ⟨⟨before, hbefore, rfl⟩, -⟩ := lookup_retainRounds.mp hround
    obtain ⟨hname, hkeep⟩ := lookup_retainAuthorities.mp hname
    exact ⟨⟨before, hbefore, hname⟩, of_decide_eq_true hkeep⟩
  · rintro ⟨⟨before, hbefore, hname⟩, hkeep⟩
    have hlookup : (retainAuthorities (fun n => decide (n ≠ origin ∨ lastRound ≤ round))
        before).lookup name = some e :=
      lookup_retainAuthorities.mpr ⟨hname, decide_eq_true hkeep⟩
    have hmem := AList.mem_lookup_iff.mp hlookup
    exact ⟨_, lookup_retainRounds.mpr ⟨⟨before, hbefore, rfl⟩, List.ne_nil_of_mem hmem⟩, hlookup⟩

lemma lookup_withinDepth {gcDepth lastCommittedRound : ℕ} :
    (dag.withinDepth gcDepth lastCommittedRound).lookup round = some authorities ↔
      dag.lookup round = some authorities ∧ lastCommittedRound ≤ addDepth gcDepth round := by
  rw [← Option.mem_def, AList.mem_lookup_iff, ← Option.mem_def, AList.mem_lookup_iff]
  simp only [withinDepth, List.mem_filter, decide_eq_true_eq]

lemma certificateOf_withinDepth {gcDepth lastCommittedRound : ℕ} :
    (dag.withinDepth gcDepth lastCommittedRound).certificateOf round name = some e ↔
      dag.certificateOf round name = some e ∧ lastCommittedRound ≤ addDepth gcDepth round := by
  simp only [certificateOf, Option.bind_eq_some_iff, lookup_withinDepth]
  constructor
  · rintro ⟨authorities, ⟨hround, hdepth⟩, hname⟩
    exact ⟨⟨authorities, hround, hname⟩, hdepth⟩
  · rintro ⟨⟨authorities, hround, hname⟩, hdepth⟩
    exact ⟨authorities, ⟨hround, hdepth⟩, hname⟩

/-- Under one entry, certificates that are stored under their origins are distinct. -/
lemma nodup_certificates (horigins : ∀ e ∈ authorities.entries, e.2.2.origin = e.1) :
    (authorities.entries.map fun e => e.2.2).Nodup := by
  have hkeys : (authorities.entries.map fun e => e.2.2).map Certificate.origin =
      authorities.entries.map Sigma.fst := by
    rw [List.map_map]
    exact List.map_congr_left horigins
  exact List.Nodup.of_map Certificate.origin (hkeys ▸ authorities.nodupKeys)

lemma nodup_stored (hrounds : dag.OwnRounds) (horigins : dag.OwnOrigins) :
    (dag.stored.map Prod.snd).Nodup := by
  simp only [stored, List.map_flatMap, List.map_map]
  refine List.nodup_flatMap.mpr ⟨fun entry hentry => nodup_certificates (horigins entry hentry), ?_⟩
  -- certificates of different entries are of different rounds
  refine dag.nodupKeys.pairwise_ne.imp_of_mem fun {entry entry'} hentry hentry' hne c hc hc' => ?_
  obtain ⟨e, he, rfl⟩ := List.mem_map.mp hc
  obtain ⟨e', he', heq⟩ := List.mem_map.mp hc'
  have hround := hrounds entry hentry e he
  have hround' := hrounds entry' hentry' e' he'
  have hsame : e'.2.2.round = e.2.2.round := congrArg Certificate.round heq
  exact hne (by rw [← hround, ← hround', hsame])

end DagMap

/-! ### The list that stands for a map -/

/-- The map holds the certificates of the list, each under its round and origin and
with its digest, and has entries for their rounds only. -/
structure Represents (con : MP3Consensus) (dag : DagMap) (certificates : List Certificate) :
    Prop where
  nodup : certificates.Nodup
  certificateOf_iff : ∀ round name e, dag.certificateOf round name = some e ↔
    e.2 ∈ certificates ∧ e.2.round = round ∧ e.2.origin = name ∧ e.1 = con.digest e.2
  exists_mem : ∀ round authorities, dag.lookup round = some authorities →
    ∃ c ∈ certificates, c.round = round

namespace Represents

variable {con : MP3Consensus} {dag : DagMap} {certificates : List Certificate} {round name : ℕ}
  {e : ℕ × Certificate} {c c' : Certificate}

lemma mem_stored (h : Represents con dag certificates) :
    e ∈ dag.stored ↔ e.2 ∈ certificates ∧ e.1 = con.digest e.2 := by
  simp only [DagMap.mem_stored_iff_certificateOf, h.certificateOf_iff]
  constructor
  · rintro ⟨_, _, hmem, -, -, hdigest⟩
    exact ⟨hmem, hdigest⟩
  · rintro ⟨hmem, hdigest⟩
    exact ⟨_, _, hmem, rfl, rfl, hdigest⟩

lemma certificateOf_of_mem (h : Represents con dag certificates) (hc : c ∈ certificates) :
    dag.certificateOf c.round c.origin = some (con.digest c, c) :=
  (h.certificateOf_iff _ _ _).mpr ⟨hc, rfl, rfl, rfl⟩

/-- A round and an origin stand for one certificate. -/
lemma eq_of_slot (h : Represents con dag certificates) (hc : c ∈ certificates)
    (hc' : c' ∈ certificates) (hround : c.round = c'.round) (horigin : c.origin = c'.origin) :
    c = c' := by
  have hslot := h.certificateOf_of_mem hc
  rw [hround, horigin, h.certificateOf_of_mem hc'] at hslot
  exact (congrArg Prod.snd (Option.some.inj hslot)).symm

lemma eq_of_digest (h : Represents con dag certificates) (hc : c ∈ certificates)
    (hc' : c' ∈ certificates) (hdigest : con.digest c = con.digest c') : c = c' := by
  obtain ⟨-, hround, horigin⟩ := con.collisionFree _ _ _ _ _ _ hdigest
  exact h.eq_of_slot hc hc' hround horigin

lemma of_mem_entries (h : Represents con dag certificates)
    {entry : Sigma fun _ : ℕ => AList fun _ : ℕ => ℕ × Certificate} (hentry : entry ∈ dag.entries)
    {e : Sigma fun _ : ℕ => ℕ × Certificate} (he : e ∈ entry.2.entries) :
    e.2.2 ∈ certificates ∧ e.2.2.round = entry.1 ∧ e.2.2.origin = e.1 ∧
      e.2.1 = con.digest e.2.2 := by
  refine (h.certificateOf_iff _ _ _).mp (Option.bind_eq_some_iff.mpr ⟨entry.2, ?_, ?_⟩)
  · exact AList.mem_lookup_iff.mpr hentry
  · exact AList.mem_lookup_iff.mpr he

lemma ownRounds (h : Represents con dag certificates) : dag.OwnRounds :=
  fun _ hentry _ he => (h.of_mem_entries hentry he).2.1

lemma ownOrigins (h : Represents con dag certificates) : dag.OwnOrigins :=
  fun _ hentry _ he => (h.of_mem_entries hentry he).2.2.1

lemma ownDigests (h : Represents con dag certificates) : dag.OwnDigests con.hash :=
  fun _ he => (h.mem_stored.mp he).2

lemma perm_stored (h : Represents con dag certificates) :
    (dag.stored.map Prod.snd).Perm certificates := by
  refine (List.perm_ext_iff_of_nodup (DagMap.nodup_stored h.ownRounds h.ownOrigins) h.nodup).mpr
    fun c => ?_
  constructor
  · intro hc
    obtain ⟨e, he, rfl⟩ := List.mem_map.mp hc
    exact (h.mem_stored.mp he).1
  · intro hc
    exact List.mem_map.mpr ⟨(con.digest c, c), h.mem_stored.mpr ⟨hc, rfl⟩, rfl⟩

lemma distinctDigests (h : Represents con dag certificates) : dag.DistinctDigests := by
  refine (List.Nodup.of_map _ (DagMap.nodup_stored h.ownRounds h.ownOrigins)).map_on
    fun e he e' he' hdigest => ?_
  obtain ⟨hmem, hown⟩ := h.mem_stored.mp he
  obtain ⟨hmem', hown'⟩ := h.mem_stored.mp he'
  have hsnd := h.eq_of_digest hmem hmem' (by rw [← hown, ← hown', hdigest])
  exact Prod.ext hdigest hsnd

/-! ### The operations -/

/-- The genesis, as `State::new` stores it. -/
theorem new {genesis : List Certificate} (hne : genesis ≠ [])
    (hrounds : ∀ c ∈ genesis, c.round = 0)
    (horigins : (genesis.map Certificate.origin).Nodup) :
    Represents con (DagMap.new con.digest genesis) genesis where
  nodup := List.Nodup.of_map _ horigins
  certificateOf_iff := by
    intro round name e
    by_cases hround : round = 0
    · subst hround
      rw [DagMap.certificateOf, DagMap.new, AList.lookup_insert, Option.bind_some,
        DagMap.lookup_collect horigins]
      constructor
      · rintro ⟨hmem, horigin, hdigest⟩
        exact ⟨hmem, hrounds _ hmem, horigin, hdigest⟩
      · rintro ⟨hmem, -, horigin, hdigest⟩
        exact ⟨hmem, horigin, hdigest⟩
    · rw [DagMap.certificateOf, DagMap.new, AList.lookup_insert_ne hround, AList.lookup_empty]
      refine iff_of_false (fun h => nomatch h) ?_
      rintro ⟨hmem, rfl, -⟩
      exact hround (hrounds _ hmem)
  exists_mem := by
    intro round authorities hlookup
    obtain ⟨c, hc⟩ := List.exists_mem_of_ne_nil _ hne
    by_cases hround : round = 0
    · exact ⟨c, hc, (hrounds c hc).trans hround.symm⟩
    · rw [DagMap.new, AList.lookup_insert_ne hround, AList.lookup_empty] at hlookup
      cases hlookup

/-- Inserting a certificate, as `run` does. -/
theorem insertCertificate (h : Represents con dag certificates) (c : Certificate) :
    Represents con (dag.insertCertificate (con.digest c) c)
      (StablecoinSystem.insertCertificate c certificates) where
  nodup := by
    refine List.nodup_cons.mpr ⟨fun hmem => ?_, h.nodup.filter _⟩
    exact of_decide_eq_true (List.mem_filter.mp hmem).2 ⟨rfl, rfl⟩
  certificateOf_iff := by
    intro round name e
    rw [DagMap.certificateOf_insertCertificate, mem_insertCertificate]
    split
    · rename_i hslot
      obtain ⟨rfl, rfl⟩ := hslot
      constructor
      · rintro ⟨⟩
        exact ⟨Or.inl rfl, rfl, rfl, rfl⟩
      · rintro ⟨heq | ⟨-, hne⟩, hround, horigin, hdigest⟩
        · rw [← heq, ← hdigest]
        · exact absurd ⟨hround, horigin⟩ hne
    · rename_i hslot
      rw [h.certificateOf_iff]
      constructor
      · rintro ⟨hmem, rfl, rfl, hdigest⟩
        exact ⟨Or.inr ⟨hmem, hslot⟩, rfl, rfl, hdigest⟩
      · rintro ⟨heq | ⟨hmem, -⟩, rfl, rfl, hdigest⟩
        · exact absurd ⟨congrArg Certificate.round heq, congrArg Certificate.origin heq⟩ hslot
        · exact ⟨hmem, rfl, rfl, hdigest⟩
  exists_mem := by
    intro round authorities hlookup
    by_cases hround : round = c.round
    · exact ⟨c, mem_insertCertificate.mpr (Or.inl rfl), hround.symm⟩
    · rw [DagMap.lookup_insertCertificate_of_ne hround] at hlookup
      obtain ⟨x, hx, rfl⟩ := h.exists_mem _ _ hlookup
      exact ⟨x, mem_insertCertificate.mpr (Or.inr ⟨hx, fun hslot => hround hslot.1⟩), rfl⟩

lemma retainRounds (h : Represents con dag certificates) (origin lastRound : ℕ) :
    Represents con (dag.retainRounds origin lastRound)
      (certificates.filter fun c => c.origin ≠ origin ∨ lastRound ≤ c.round) where
  nodup := h.nodup.filter _
  certificateOf_iff := by
    intro round name e
    rw [DagMap.certificateOf_retainRounds, h.certificateOf_iff, List.mem_filter,
      decide_eq_true_eq]
    constructor
    · rintro ⟨⟨hmem, rfl, rfl, hdigest⟩, hkeep⟩
      exact ⟨⟨hmem, hkeep⟩, rfl, rfl, hdigest⟩
    · rintro ⟨⟨hmem, hkeep⟩, rfl, rfl, hdigest⟩
      exact ⟨⟨hmem, rfl, rfl, hdigest⟩, hkeep⟩
  exists_mem := by
    intro round authorities hlookup
    obtain ⟨⟨before, hbefore, rfl⟩, hne⟩ := DagMap.lookup_retainRounds.mp hlookup
    obtain ⟨⟨name, e⟩, he⟩ := List.exists_mem_of_ne_nil _ hne
    obtain ⟨hname, hkeep⟩ := DagMap.lookup_retainAuthorities.mp (AList.mem_lookup_iff.mpr he)
    obtain ⟨hmem, rfl, rfl, -⟩ := (h.certificateOf_iff round name e).mp
      (Option.bind_eq_some_iff.mpr ⟨before, hbefore, hname⟩)
    exact ⟨e.2, List.mem_filter.mpr ⟨hmem, hkeep⟩, rfl⟩

lemma withinDepth (h : Represents con dag certificates) (gcDepth lastCommittedRound : ℕ) :
    Represents con (dag.withinDepth gcDepth lastCommittedRound)
      (certificates.filter fun c => lastCommittedRound ≤ addDepth gcDepth c.round) where
  nodup := h.nodup.filter _
  certificateOf_iff := by
    intro round name e
    rw [DagMap.certificateOf_withinDepth, h.certificateOf_iff, List.mem_filter, decide_eq_true_eq]
    constructor
    · rintro ⟨⟨hmem, rfl, rfl, hdigest⟩, hdepth⟩
      exact ⟨⟨hmem, hdepth⟩, rfl, rfl, hdigest⟩
    · rintro ⟨⟨hmem, hdepth⟩, rfl, rfl, hdigest⟩
      exact ⟨⟨hmem, rfl, rfl, hdigest⟩, hdepth⟩
  exists_mem := by
    intro round authorities hlookup
    obtain ⟨hbefore, hdepth⟩ := DagMap.lookup_withinDepth.mp hlookup
    obtain ⟨c, hc, rfl⟩ := h.exists_mem round authorities hbefore
    exact ⟨c, List.mem_filter.mpr ⟨hc, decide_eq_true hdepth⟩, rfl⟩

/-- The rounds of the entries are those of the certificates. -/
lemma mem_keys (h : Represents con dag certificates) :
    round ∈ dag.keys ↔ ∃ c ∈ certificates, c.round = round := by
  rw [← AList.mem_keys, ← AList.lookup_isSome, Option.isSome_iff_exists]
  constructor
  · rintro ⟨authorities, hlookup⟩
    exact h.exists_mem round authorities hlookup
  · rintro ⟨c, hc, rfl⟩
    obtain ⟨authorities, hlookup, -⟩ := Option.bind_eq_some_iff.mp (h.certificateOf_of_mem hc)
    exact ⟨authorities, hlookup⟩

lemma any_keys_eq (h : Represents con dag certificates) (p : ℕ → Bool) :
    dag.keys.any p = certificates.any fun c => p c.round := by
  rw [Bool.eq_iff_iff, List.any_eq_true, List.any_eq_true]
  constructor
  · rintro ⟨round, hround, hp⟩
    obtain ⟨c, hc, rfl⟩ := h.mem_keys.mp hround
    exact ⟨c, hc, hp⟩
  · rintro ⟨c, hc, hp⟩
    exact ⟨c.round, h.mem_keys.mpr ⟨c, hc, rfl⟩, hp⟩

lemma rel_retain (h : Represents con dag certificates) (overflowChecks : Bool)
    (gcDepth lastCommittedRound : ℕ) (entry : Σ _ : ℕ, ℕ) :
    Option.Rel (Represents con) (DagMap.retain overflowChecks gcDepth lastCommittedRound dag entry)
      (State.retain overflowChecks gcDepth lastCommittedRound certificates entry) := by
  have hrounds := h.retainRounds entry.1 entry.2
  rw [DagMap.retain, State.retain, retainDepth, hrounds.any_keys_eq]
  split
  · exact .none
  · exact .some (hrounds.withinDepth gcDepth lastCommittedRound)

/-- Committing a certificate, as `State::update` does. -/
theorem update {s s' : State} {overflowChecks : Bool} {gcDepth : ℕ}
    (h : Represents con dag s.dag) (hupdate : s.update overflowChecks gcDepth c = some s') :
    ∃ dag', dag.update overflowChecks s'.lastCommitted s'.lastCommittedRound gcDepth = some dag' ∧
      Represents con dag' s'.dag := by
  simp only [State.update] at hupdate
  split at hupdate
  · cases hupdate
  · rename_i lastCommittedRound hmax
    obtain ⟨kept, hkept, rfl⟩ := Option.map_eq_some_iff.mp hupdate
    have hloop : Option.Rel (Represents con)
        (dag.update overflowChecks (s.commitRound c) lastCommittedRound gcDepth) _ :=
      foldlM_rel h fun entry _ _ _ h =>
        h.rel_retain overflowChecks gcDepth lastCommittedRound entry
    rw [hkept] at hloop
    dsimp only
    generalize dag.update overflowChecks (s.commitRound c) lastCommittedRound gcDepth = found
      at hloop ⊢
    cases hloop with
    | some h => exact ⟨_, rfl, h⟩

/-! ### What is read -/

/-- What `slot_leaders` and `primary_leader` look up. -/
theorem certificateOf_eq (h : Represents con dag certificates) (round name : ℕ) :
    StablecoinSystem.certificateOf round name certificates =
      (dag.certificateOf round name).map Prod.snd := by
  refine Option.ext fun c => ?_
  rw [StablecoinSystem.certificateOf, find?_eq_some_iff, Option.map_eq_some_iff]
  · simp only [mem_atRound, decide_eq_true_eq, h.certificateOf_iff]
    constructor
    · rintro ⟨⟨hmem, hround⟩, horigin⟩
      exact ⟨(con.digest c, c), ⟨hmem, hround, horigin, rfl⟩, rfl⟩
    · rintro ⟨e, ⟨hmem, hround, horigin, -⟩, rfl⟩
      exact ⟨⟨hmem, hround⟩, horigin⟩
  · intro x hx y hy hxname hyname
    obtain ⟨hx, hxround⟩ := mem_atRound.mp hx
    obtain ⟨hy, hyround⟩ := mem_atRound.mp hy
    exact h.eq_of_slot hx hy (hxround.trans hyround.symm)
      ((of_decide_eq_true hxname).trans (of_decide_eq_true hyname).symm)

lemma mem_values {values : List (ℕ × Certificate)} (h : Represents con dag certificates)
    (hvalues : dag.values round = some values) :
    e ∈ values ↔ e.2 ∈ certificates ∧ e.2.round = round ∧ e.1 = con.digest e.2 := by
  constructor
  · intro he
    obtain ⟨hmem, hdigest⟩ :=
      h.mem_stored.mp (DagMap.mem_stored_iff.mpr ⟨round, values, hvalues, he⟩)
    exact ⟨hmem, h.ownRounds.round_eq hvalues he, hdigest⟩
  · rintro ⟨hmem, rfl, hdigest⟩
    have hslot := (h.certificateOf_iff _ _ e).mpr ⟨hmem, rfl, rfl, hdigest⟩
    obtain ⟨authorities, hlookup, hname⟩ := Option.bind_eq_some_iff.mp hslot
    obtain ⟨values', hvalues', he⟩ := DagMap.mem_values_iff.mpr ⟨authorities, _, hlookup, hname⟩
    rw [hvalues] at hvalues'
    cases hvalues'
    exact he

/-- The values of a round are the certificates of the round. -/
lemma perm_values {values : List (ℕ × Certificate)} (h : Represents con dag certificates)
    (hvalues : dag.values round = some values) :
    (values.map Prod.snd).Perm (atRound round certificates) := by
  have hnodup : (values.map Prod.snd).Nodup := by
    obtain ⟨authorities, hlookup, rfl⟩ := Option.map_eq_some_iff.mp hvalues
    rw [List.map_map]
    exact DagMap.nodup_certificates (h.ownOrigins _ (AList.mem_lookup_iff.mp hlookup))
  refine (List.perm_ext_iff_of_nodup hnodup (h.nodup.filter _)).mpr fun c => ?_
  rw [← atRound, mem_atRound, List.mem_map]
  constructor
  · rintro ⟨e, he, rfl⟩
    obtain ⟨hmem, hround, -⟩ := (h.mem_values hvalues).mp he
    exact ⟨hmem, hround⟩
  · rintro ⟨hmem, hround⟩
    exact ⟨(con.digest c, c), (h.mem_values hvalues).mpr ⟨hmem, hround, rfl⟩, rfl⟩

/-- A round has an entry if it has a certificate. -/
lemma values_eq_none_iff (h : Represents con dag certificates) :
    dag.values round = none ↔ atRound round certificates = [] := by
  rw [List.eq_nil_iff_forall_not_mem]
  constructor
  · intro hnone c hc
    obtain ⟨hmem, rfl⟩ := mem_atRound.mp hc
    obtain ⟨authorities, hlookup, -⟩ := Option.bind_eq_some_iff.mp (h.certificateOf_of_mem hmem)
    rw [DagMap.values, hlookup] at hnone
    cases hnone
  · intro hnil
    cases hlookup : dag.lookup round with
    | none => rw [DagMap.values, hlookup, Option.map_none]
    | some authorities =>
        obtain ⟨c, hc, hround⟩ := h.exists_mem round authorities hlookup
        exact absurd (mem_atRound.mpr ⟨hc, hround⟩) (hnil c)

theorem support_eq (h : Represents con dag certificates) (round : ℕ) (leader : Certificate) :
    con.support round leader certificates =
      dag.support con.committee round (con.digest leader) := by
  rw [MP3Consensus.support, MP3Consensus.supportStake, DagMap.support]
  cases hvalues : dag.values round with
  | none =>
      rw [h.values_eq_none_iff.mp hvalues]
      rfl
  | some values =>
      rw [Option.map_some, Option.getD_some]
      have hperm := (h.perm_values hvalues).filter fun x => con.digest leader ∈ x.parents
      rw [← (hperm.map fun x => con.committee.stake x.origin).sum_nat, List.filter_map, List.map_map]
      rfl

/-- One round of `linked`. -/
lemma rel_linkedParents {parents parents' : List Certificate}
    (h : Represents con dag certificates) (hparents : parents.Perm parents') (round : ℕ) :
    Option.Rel List.Perm (con.linkedParents certificates parents round)
      (dag.linkedParents parents' round) := by
  rw [MP3Consensus.linkedParents, DagMap.linkedParents]
  cases hvalues : dag.values round with
  | none =>
      rw [h.values_eq_none_iff.mp hvalues]
      exact .none
  | some values =>
      split
      · rename_i hnil
        rw [h.values_eq_none_iff.mpr hnil] at hvalues
        cases hvalues
      · refine .some (((h.perm_values hvalues).symm.filter _).trans (List.Perm.of_eq ?_))
        rw [List.filter_map]
        refine congrArg _ (List.filter_congr fun e he => ?_)
        rw [Function.comp_apply, ← ((h.mem_values hvalues).mp he).2.2]
        exact hparents.any_eq

theorem linked_eq (h : Represents con dag certificates) (leader prev : Certificate) :
    con.linked leader prev certificates = dag.linked leader prev := by
  have hloop := foldlM_rel (l := (List.range' prev.round (leader.round - prev.round)).reverse)
    (List.Perm.refl [leader]) fun round _ _ _ hperm => h.rel_linkedParents hperm round
  rw [MP3Consensus.linked, DagMap.linked]
  generalize List.foldlM (con.linkedParents certificates) _ _ = found at hloop ⊢
  generalize List.foldlM dag.linkedParents _ _ = found' at hloop ⊢
  cases hloop with
  | none => rfl
  | some hperm => exact congrArg some hperm.any_eq

/-- A parent is found under its digest. -/
lemma find?_eq (h : Represents con dag certificates) (round parent : ℕ) :
    (atRound round certificates).find? (fun c => con.digest c = parent) =
      ((dag.values round).bind fun values => values.find? fun e => e.1 = parent).map Prod.snd := by
  refine Option.ext fun c => ?_
  have hunique : ∀ x ∈ atRound round certificates, ∀ y ∈ atRound round certificates,
      decide (con.digest x = parent) = true → decide (con.digest y = parent) = true → x = y := by
    intro x hx y hy hxd hyd
    exact h.eq_of_digest (mem_atRound.mp hx).1 (mem_atRound.mp hy).1
      ((of_decide_eq_true hxd).trans (of_decide_eq_true hyd).symm)
  rw [find?_eq_some_iff hunique, Option.map_eq_some_iff, decide_eq_true_eq]
  constructor
  · rintro ⟨hc, rfl⟩
    cases hvalues : dag.values round with
    | none =>
        rw [h.values_eq_none_iff.mp hvalues] at hc
        cases hc
    | some values =>
        obtain ⟨hmem, hround⟩ := mem_atRound.mp hc
        refine ⟨(con.digest c, c), ?_, rfl⟩
        exact (DagMap.find?_digest h.distinctDigests hvalues).mpr
          ⟨(h.mem_values hvalues).mpr ⟨hmem, hround, rfl⟩, rfl⟩
  · rintro ⟨e, hfound, rfl⟩
    obtain ⟨values, hvalues, hfind⟩ := Option.bind_eq_some_iff.mp hfound
    obtain ⟨he, rfl⟩ := (DagMap.find?_digest h.distinctDigests hvalues).mp hfind
    obtain ⟨hmem, hround, hdigest⟩ := (h.mem_values hvalues).mp he
    exact ⟨mem_atRound.mpr ⟨hmem, hround⟩, hdigest.symm⟩

/-- The list model looks up no round before round zero: there is none in the dag. -/
lemma uncommittedParents_eq {s : State} (h : Represents con dag s.dag)
    (hmax : ∀ c ∈ s.dag, c.round ≠ 2 ^ 64 - 1) (x : Certificate) :
    con.uncommittedParents s x =
      (dag.uncommittedParents con.overflowChecks s.lastCommitted x).map (List.map Prod.snd) := by
  rw [MP3Consensus.uncommittedParents, DagMap.uncommittedParents, DagMap.roundBefore]
  split
  · rfl
  · split
    · split
      · rfl
      · have hnil : atRound (2 ^ 64 - 1) s.dag = [] :=
          List.filter_eq_nil_iff.mpr fun c hc => by
            rw [decide_eq_true_eq]
            exact hmax c hc
        rw [Option.map_some, h.values_eq_none_iff.mpr hnil]
        simp
    · rw [Option.map_some, Option.map_some, List.map_filterMap]
      refine congrArg some (List.filterMap_congr fun parent _ => ?_)
      rw [h.find?_eq]
      cases (dag.values (x.round - 1)).bind fun values => values.find? fun e => e.1 = parent with
      | none => rfl
      | some e =>
          change (if s.lastCommitted.lookup e.2.origin = some e.2.round then none else some e.2) =
            Option.map Prod.snd
              (if s.lastCommitted.lookup e.2.origin = some e.2.round then none else some e)
          split <;> rfl

theorem orderDag_eq {s : State} (h : Represents con dag s.dag)
    (hmax : ∀ c ∈ s.dag, c.round ≠ 2 ^ 64 - 1) (leader : Certificate) :
    con.orderDag s leader = dag.orderDag con.overflowChecks s.lastCommitted s.lastCommittedRound
      con.gcDepth leader := by
  have htraverse : traverse (con.uncommittedParents s) con.digest (s.dag.length + 1) [leader] [] [] =
      (dag.ordered con.overflowChecks s.lastCommitted leader).map (List.map Prod.snd) := by
    rw [← h.perm_stored.length_eq, List.length_map, DagMap.ordered]
    change traverse _ _ _ ([((0 : ℕ), leader)].map Prod.snd) []
      (([] : List (ℕ × Certificate)).map Prod.snd) = _
    refine traverse_map Prod.snd (fun e => h.uncommittedParents_eq hmax e.2) fun _ e hedge => ?_
    exact (h.mem_stored.mp (DagMap.stored_of_edge hedge)).2.symm
  rw [MP3Consensus.orderDag, DagMap.orderDag, htraverse]
  cases dag.ordered con.overflowChecks s.lastCommitted leader <;> rfl

end Represents

/-! ### Whole runs -/

/-- A map and a list after the same operations: those of `State::new`, of `run` and of
`State::update`. A build with overflow checks that has not panicked has the same map. -/
inductive SameSteps (con : MP3Consensus) : DagMap → List Certificate → Prop
  | new : SameSteps con (DagMap.new con.digest con.genesis) con.genesis
  | insertCertificate {dag : DagMap} {certificates : List Certificate} (c : Certificate) :
      SameSteps con dag certificates →
      SameSteps con (dag.insertCertificate (con.digest c) c) (insertCertificate c certificates)
  | update {dag dag' : DagMap} {s s' : State} {c : Certificate} : SameSteps con dag s.dag →
      s.update false con.gcDepth c = some s' →
      dag.update false s'.lastCommitted s'.lastCommittedRound con.gcDepth = some dag' →
      SameSteps con dag' s'.dag

namespace MP3Consensus

variable {con : MP3Consensus}

lemma origins_genesis (con : MP3Consensus) :
    con.genesis.map Certificate.origin = con.committee.keys := by
  rw [genesis, Certificate.genesis, List.map_map]
  exact List.map_id _

lemma represents_genesis (hcommittee : con.committee.keys ≠ []) :
    Represents con (DagMap.new con.digest con.genesis) con.genesis := by
  refine Represents.new ?_ (fun _ hc => Certificate.round_of_mem_genesis hc) ?_
  · intro hnil
    rw [← origins_genesis, hnil, List.map_nil] at hcommittee
    exact hcommittee rfl
  · rw [origins_genesis]
    exact con.committee.sorted.imp ne_of_lt

/-- The same operations leave a list that stands for the map. -/
theorem represents_of_sameSteps {dag : DagMap} {certificates : List Certificate}
    (hcommittee : con.committee.keys ≠ []) (h : SameSteps con dag certificates) :
    Represents con dag certificates := by
  induction h with
  | new => exact represents_genesis hcommittee
  | insertCertificate c _ ih => exact ih.insertCertificate c
  | update _ hupdate hupdate' ih =>
      obtain ⟨dag, hdag, h⟩ := ih.update hupdate
      rw [hdag] at hupdate'
      cases hupdate'
      exact h

/-- The operations leave a map that stores each certificate under its own round and
origin, with its own digest, and no digest twice. -/
theorem stored_of_sameSteps {dag : DagMap} {certificates : List Certificate}
    (hcommittee : con.committee.keys ≠ []) (h : SameSteps con dag certificates) :
    dag.OwnRounds ∧ dag.OwnOrigins ∧ dag.OwnDigests con.hash ∧ dag.DistinctDigests := by
  have hdag := represents_of_sameSteps hcommittee h
  exact ⟨hdag.ownRounds, hdag.ownOrigins, hdag.ownDigests, hdag.distinctDigests⟩

lemma exists_sameSteps_sendAll {p : State × List Sent} (hcommittee : con.committee.keys ≠ [])
    (hp : p.1.Wf) (h : ∃ dag, SameSteps con dag p.1.dag) (flattened : State)
    (xs : List Certificate) :
    ∃ dag, SameSteps con dag (con.sendAll flattened p xs).1.dag := by
  refine (sendAll_induction (I := fun _ p => p.1.Wf ∧ ∃ dag, SameSteps con dag p.1.dag)
    ⟨hp, h⟩ ?_).2
  rintro pre x post p - ⟨hp, dag, h⟩
  have hupdate : p.1.update false con.gcDepth x = some (p.1.commit con.gcDepth x) :=
    State.update_of_fits hp (fun hchecks => absurd hchecks Bool.false_ne_true) x
  obtain ⟨dag', hdag, -⟩ := (represents_of_sameSteps hcommittee h).update hupdate
  exact ⟨State.wf_commit hp con.gcDepth x, dag', h.update hupdate hdag⟩

/-- In every state that `run` reaches, the list is one that the operations leave. -/
lemma exists_sameSteps_run (con : MP3Consensus) (hcommittee : con.committee.keys ≠ [])
    (order : List Certificate) :
    ∃ dag, SameSteps con dag (con.run order).state.dag := by
  refine (run_induction_of (C := fun _ _ => True)
    (I := fun _ r => ∃ dag, SameSteps con dag r.state.dag) ⟨_, .new⟩ (fun _ _ _ _ h => h)
    ?_ (fun _ _ _ _ _ h _ => h) ?_ (fun _ _ h => h) fun _ _ _ _ => trivial).2
  · rintro _ c r - - ⟨dag, h⟩ -
    exact ⟨_, h.insertCertificate c⟩
  · intro _ r block rest s sequence _ hr h hchain hblock
    exact (hr.commit_induction (I := fun _ p => ∃ dag, SameSteps con dag p.1.dag) hchain h
      (fun _ _ _ xs hp h _ => exists_sameSteps_sendAll hcommittee hp.wf h _ xs)
      (fun _ _ _ _ xs _ hp h _ => exists_sameSteps_sendAll hcommittee hp.wf h _ xs) hblock).2

/-- **The list of every state that `run` reaches stands for the map**: what `run` reads
of the dag is the same over both, unless a certificate of the largest of all rounds is found
from round zero. -/
theorem exists_represents_run (con : MP3Consensus) (hcommittee : con.committee.keys ≠ [])
    (order : List Certificate) :
    ∃ dag, SameSteps con dag (con.run order).state.dag ∧
      (∀ round name, StablecoinSystem.certificateOf round name (con.run order).state.dag =
        (dag.certificateOf round name).map Prod.snd) ∧
      (∀ round leader, con.support round leader (con.run order).state.dag =
        dag.support con.committee round (con.digest leader)) ∧
      (∀ leader prev, con.linked leader prev (con.run order).state.dag = dag.linked leader prev) ∧
      ((∀ c ∈ order, c.round ≠ 2 ^ 64 - 1) →
        ∀ leader, con.orderDag (con.run order).state leader = dag.orderDag con.overflowChecks
          (con.run order).state.lastCommitted (con.run order).state.lastCommittedRound con.gcDepth
          leader) := by
  obtain ⟨dag, h⟩ := exists_sameSteps_run con hcommittee order
  have hdag := represents_of_sameSteps hcommittee h
  refine ⟨dag, h, hdag.certificateOf_eq, hdag.support_eq, hdag.linked_eq, fun hmax => ?_⟩
  refine hdag.orderDag_eq fun c hc => ?_
  rcases List.mem_append.mp ((chained_run con order).delivered_of_dag c hc) with hc | hc
  · rw [Certificate.round_of_mem_genesis hc]
    decide
  · exact hmax c hc

end MP3Consensus

end StablecoinSystem
