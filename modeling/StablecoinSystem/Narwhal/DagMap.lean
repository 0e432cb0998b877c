import StablecoinSystem.Narwhal.Delivery

/-!
The dag as `consensus/src/mp3bft.rs` keeps it: a map from rounds to maps from
authorities to certificates, with the digests that are stored beside them.

The rest of the development has the list of the certificates in its place. Here
`linked` and `order_dag` are translated over the map itself, for any map, so that
an entry may be empty and a digest may be anything.

* `linked_iff`: `linked` decides whether a leader reaches another;
* `orderDag_spec`: `order_dag` returns the uncommitted certificates that the
  leader reaches, unless a sum or a difference overflows.
-/

namespace StablecoinSystem

/-- `Dag`: the certificates of each round by their origins, with their digests. -/
abbrev DagMap : Type := AList fun _ : ℕ => AList fun _ : ℕ => ℕ × Certificate

namespace DagMap

open MP3Consensus (certifyNone certifySecond twoAuthorities)

variable (dag : DagMap)

/-- The values of a round, if it has an entry. -/
def values (round : ℕ) : Option (List (ℕ × Certificate)) :=
  (dag.lookup round).map fun authorities => authorities.entries.map Sigma.snd

/-- All that is stored. -/
def stored : List (ℕ × Certificate) :=
  dag.entries.flatMap fun entry => entry.2.entries.map Sigma.snd

/-- Insert a certificate with its digest, under its round and origin. -/
def insertCertificate (digest : ℕ) (c : Certificate) : DagMap :=
  AList.insert c.round (((dag.lookup c.round).getD ∅).insert c.origin (digest, c)) dag

/-! ### Paths -/

/-- One round of `linked`. -/
def linkedParents (parents : List Certificate) (round : ℕ) : Option (List Certificate) :=
  (dag.values round).map fun certificates => (certificates.filter fun e =>
    parents.any fun x => decide (e.1 ∈ x.parents)).map Prod.snd

/-- `linked`. -/
def linked (leader prevLeader : Certificate) : Option Bool :=
  ((List.range' prevLeader.round (leader.round - prevLeader.round)).reverse.foldlM
    dag.linkedParents [leader]).map fun parents => parents.any fun x => x.eq prevLeader

/-! ### Sub-dags -/

/-- `round - 1`. -/
def roundBefore (overflowChecks : Bool) (round : ℕ) : Option ℕ :=
  if round = 0 then if overflowChecks then none else some (2 ^ 64 - 1)
  else some (round - 1)

/-- The parents of a certificate that `order_dag` follows, with their digests. -/
def uncommittedParents (overflowChecks : Bool) (lastCommitted : AList fun _ : ℕ => ℕ)
    (x : Certificate) : Option (List (ℕ × Certificate)) :=
  if x.parents = [] then some []
  else (roundBefore overflowChecks x.round).map fun round => x.parents.filterMap fun parent =>
    match (dag.values round).bind fun certificates =>
        certificates.find? fun e => e.1 = parent with
    | none => none
    | some e => if lastCommitted.lookup e.2.origin = some e.2.round then none else some e

/-- `ordered` after the loop of `order_dag`, with the digests. The leader has none on
the stack; as it is not marked, any will do. -/
def ordered (overflowChecks : Bool) (lastCommitted : AList fun _ : ℕ => ℕ)
    (leader : Certificate) : Option (List (ℕ × Certificate)) :=
  traverse (fun e => dag.uncommittedParents overflowChecks lastCommitted e.2) Prod.fst
    (dag.stored.length + 1) [(0, leader)] [] []

/-- `order_dag`, given what it reads of the state; `none` is a panic. -/
def orderDag (overflowChecks : Bool) (lastCommitted : AList fun _ : ℕ => ℕ)
    (lastCommittedRound gcDepth : ℕ) (leader : Certificate) : Option (List Certificate) :=
  match dag.ordered overflowChecks lastCommitted leader with
  | none => none
  | some ordered =>
      (retainDepth overflowChecks gcDepth lastCommittedRound (ordered.map Prod.snd)).map
        (List.insertionSort Certificate.roundLe)

/-! ### What a dag stores -/

/-- Certificates are stored under their own rounds. -/
def OwnRounds : Prop :=
  ∀ entry ∈ dag.entries, ∀ e ∈ entry.2.entries, e.2.2.round = entry.1

/-- Certificates are stored under their own origins. -/
def OwnOrigins : Prop :=
  ∀ entry ∈ dag.entries, ∀ e ∈ entry.2.entries, e.2.2.origin = e.1

/-- The digest stored with a certificate is that of its id, round and origin. -/
def OwnDigests (hash : ℕ → ℕ → ℕ → ℕ) : Prop :=
  ∀ e ∈ dag.stored, e.1 = hash e.2.id e.2.round e.2.origin

/-- No digest is stored twice. -/
def DistinctDigests : Prop := (dag.stored.map Prod.fst).Nodup

instance : Decidable dag.OwnRounds := inferInstanceAs (Decidable (∀ entry ∈ dag.entries, _))

instance : Decidable dag.OwnOrigins := inferInstanceAs (Decidable (∀ entry ∈ dag.entries, _))

instance (hash : ℕ → ℕ → ℕ → ℕ) : Decidable (dag.OwnDigests hash) :=
  inferInstanceAs (Decidable (∀ e ∈ dag.stored, _))

instance : Decidable dag.DistinctDigests := inferInstanceAs (Decidable (List.Nodup _))

/-- `z` is stored in the round before that of `y`, under a digest that is a parent
of `y`. -/
def Parent (y z : Certificate) : Prop :=
  ∃ round certificates d, round + 1 = y.round ∧ dag.values round = some certificates ∧
    (d, z) ∈ certificates ∧ d ∈ y.parents

/-- A parent that is not the last committed of its origin. -/
def UncommittedParent (lastCommitted : AList fun _ : ℕ => ℕ) (y z : Certificate) : Prop :=
  dag.Parent y z ∧ lastCommitted.lookup z.origin ≠ some z.round

variable {dag} {round : ℕ} {certificates : List (ℕ × Certificate)} {e e' : ℕ × Certificate}
  {x y z leader prev : Certificate}

lemma mem_values_iff : (∃ certificates, dag.values round = some certificates ∧ e ∈ certificates) ↔
    ∃ authorities name, dag.lookup round = some authorities ∧ authorities.lookup name = some e := by
  simp only [values, Option.map_eq_some_iff]
  constructor
  · rintro ⟨-, ⟨authorities, hround, rfl⟩, he⟩
    obtain ⟨⟨name, e'⟩, he', rfl⟩ := List.mem_map.mp he
    exact ⟨authorities, name, hround, AList.mem_lookup_iff.mpr he'⟩
  · rintro ⟨authorities, name, hround, hname⟩
    exact ⟨_, ⟨authorities, hround, rfl⟩,
      List.mem_map.mpr ⟨⟨name, e⟩, AList.mem_lookup_iff.mp hname, rfl⟩⟩

lemma mem_stored_iff : e ∈ dag.stored ↔
    ∃ round certificates, dag.values round = some certificates ∧ e ∈ certificates := by
  simp only [stored, List.mem_flatMap, values, Option.map_eq_some_iff]
  constructor
  · rintro ⟨⟨round, authorities⟩, hentry, he⟩
    exact ⟨round, _, ⟨authorities, AList.mem_lookup_iff.mpr hentry, rfl⟩, he⟩
  · rintro ⟨round, -, ⟨authorities, hround, rfl⟩, he⟩
    exact ⟨⟨round, authorities⟩, AList.mem_lookup_iff.mp hround, he⟩

lemma mem_stored_iff' : e ∈ dag.stored ↔ ∃ round authorities name,
    dag.lookup round = some authorities ∧ authorities.lookup name = some e := by
  rw [mem_stored_iff]
  exact exists_congr fun _ => mem_values_iff

lemma OwnRounds.round_eq (h : dag.OwnRounds) (hvalues : dag.values round = some certificates)
    (he : e ∈ certificates) : e.2.round = round := by
  obtain ⟨authorities, name, hround, hname⟩ := mem_values_iff.mp ⟨certificates, hvalues, he⟩
  exact h _ (AList.mem_lookup_iff.mp hround) _ (AList.mem_lookup_iff.mp hname)

lemma Parent.round_eq (h : dag.OwnRounds) (hz : dag.Parent y z) : z.round + 1 = y.round := by
  obtain ⟨round, certificates, d, hround, hvalues, hmem, -⟩ := hz
  rw [← hround, h.round_eq hvalues hmem]

/-- Rounds fall along a path. -/
lemma round_lt_of_path (h : dag.OwnRounds) (hz : Relation.TransGen dag.Parent y z) :
    z.round < y.round := by
  induction hz with
  | single hz =>
      have hround := hz.round_eq h
      omega
  | tail _ hz ih =>
      have hround := hz.round_eq h
      omega

/-! ### `linked` decides reachability -/

lemma mem_linkedParents {parents : List Certificate}
    (hvalues : dag.values round = some certificates) :
    ∃ xs, dag.linkedParents parents round = some xs ∧
      ∀ c, c ∈ xs ↔ ∃ d, (d, c) ∈ certificates ∧ ∃ x ∈ parents, d ∈ x.parents := by
  refine ⟨_, by rw [linkedParents, hvalues, Option.map_some], fun c => ?_⟩
  simp only [List.mem_map, List.mem_filter, List.any_eq_true, decide_eq_true_eq, Prod.exists,
    exists_eq_right]

/-- The frontier of `linked`: after each round, the certificates of the round that
the leader reaches. -/
lemma exists_frontier (h : dag.OwnRounds)
    (hentries : ∀ round, prev.round ≤ round → round < leader.round →
      (dag.values round).isSome = true) :
    ∃ parents, (List.range' prev.round (leader.round - prev.round)).reverse.foldlM
        dag.linkedParents [leader] = some parents ∧
      ∀ c, c ∈ parents ↔ Relation.ReflTransGen dag.Parent leader c ∧
        c.round + (leader.round - prev.round) = leader.round := by
  have hloop := exists_foldlM (f := dag.linkedParents) (b := [leader])
    (l := (List.range' prev.round (leader.round - prev.round)).reverse)
    (I := fun pre parents => ∀ c, c ∈ parents ↔ Relation.ReflTransGen dag.Parent leader c ∧
      c.round + pre.length = leader.round) ?_ ?_
  · simpa using hloop
  · -- before the first round the frontier is the leader
    intro c
    rw [List.mem_singleton, List.length_nil, Nat.add_zero]
    constructor
    · rintro rfl
      exact ⟨.refl, rfl⟩
    · rintro ⟨hpath, hround⟩
      rcases Relation.reflTransGen_iff_eq_or_transGen.mp hpath with rfl | hpath
      · rfl
      · have hlt := round_lt_of_path h hpath
        omega
  -- One round down: the parents of the frontier are what the leader reaches there.
  intro pre round post parents hsplit hparents
  obtain ⟨hlow, hhigh, -⟩ := bounds_of_split_reverse hsplit
  have hlevel := add_length_of_split_reverse hsplit
  obtain ⟨certificates, hvalues⟩ := Option.isSome_iff_exists.mp
    (hentries round hlow (by omega))
  obtain ⟨xs, hxs, hmem⟩ := mem_linkedParents hvalues
  refine ⟨xs, hxs, fun c => ?_⟩
  rw [hmem, List.length_append, List.length_singleton]
  constructor
  · rintro ⟨d, hc, x, hx, hd⟩
    obtain ⟨hpath, hround⟩ := (hparents x).mp hx
    have hcround := h.round_eq hvalues hc
    dsimp only at hcround
    exact ⟨hpath.tail ⟨round, certificates, d, by omega, hvalues, hc, hd⟩, by omega⟩
  · rintro ⟨hpath, hround⟩
    rcases Relation.ReflTransGen.cases_tail hpath with rfl | ⟨x, hx, hc⟩
    · omega
    · have hxround := hc.round_eq h
      obtain ⟨round', certificates', d, hround', hvalues', hc, hd⟩ := hc
      have hsame : round' = round := by omega
      rw [hsame, hvalues] at hvalues'
      cases hvalues'
      exact ⟨d, hc, x, (hparents x).mpr ⟨hx, by omega⟩, hd⟩

lemma DistinctDigests.eq_of_digest (h : dag.DistinctDigests) (he : e ∈ dag.stored)
    (he' : e' ∈ dag.stored) (hdigest : e.1 = e'.1) : e = e' :=
  List.inj_on_of_nodup_map h he he' hdigest

lemma find?_digest {digest : ℕ} (h : dag.DistinctDigests)
    (hvalues : dag.values round = some certificates) :
    certificates.find? (fun e => e.1 = digest) = some e ↔ e ∈ certificates ∧ e.1 = digest := by
  rw [find?_eq_some_iff, decide_eq_true_eq]
  intro x hx y hy hxd hyd
  exact h.eq_of_digest (mem_stored_iff.mpr ⟨round, certificates, hvalues, hx⟩)
    (mem_stored_iff.mpr ⟨round, certificates, hvalues, hy⟩)
    ((of_decide_eq_true hxd).trans (of_decide_eq_true hyd).symm)

/-- Stored certificates that are equal for `PartialEq` are the same. -/
lemma eq_of_eq {hash : ℕ → ℕ → ℕ → ℕ} (hown : dag.OwnDigests hash) (hdigests : dag.DistinctDigests)
    (he : e ∈ dag.stored) (he' : e' ∈ dag.stored) (heq : e.2.eq e'.2 = true) : e.2 = e'.2 := by
  obtain ⟨hid, hround, horigin⟩ := Certificate.eq_iff.mp heq
  have hdigest : e.1 = e'.1 := by rw [hown e he, hown e' he', hid, hround, horigin]
  rw [hdigests.eq_of_digest he he' hdigest]

lemma Parent.exists_stored (hz : dag.Parent y z) : ∃ d, (d, z) ∈ dag.stored := by
  obtain ⟨round, certificates, d, -, hvalues, hmem, -⟩ := hz
  exact ⟨d, mem_stored_iff.mpr ⟨round, certificates, hvalues, hmem⟩⟩

/-- **`linked` decides reachability**: given an entry for each round in between, it
returns whether the two certificates are equal or a path leads from the one to the
other. -/
theorem linked_iff (dag : DagMap) (hash : ℕ → ℕ → ℕ → ℕ) (leader prev : Certificate)
    (hrounds : dag.OwnRounds) (hown : dag.OwnDigests hash) (hdigests : dag.DistinctDigests)
    (hentries : ∀ round, prev.round ≤ round → round < leader.round →
      (dag.values round).isSome = true)
    (hprev : ∃ d, (d, prev) ∈ dag.stored) :
    ∃ found, dag.linked leader prev = some found ∧
      (found = true ↔ leader.eq prev = true ∨ Relation.TransGen dag.Parent leader prev) := by
  obtain ⟨parents, hparents, hmem⟩ := exists_frontier hrounds hentries
  refine ⟨_, by rw [linked, hparents, Option.map_some], ?_⟩
  rw [List.any_eq_true]
  constructor
  · rintro ⟨c, hc, heq⟩
    obtain ⟨hpath, -⟩ := (hmem c).mp hc
    rcases Relation.reflTransGen_iff_eq_or_transGen.mp hpath with rfl | hpath
    · exact Or.inl heq
    · -- what the path ends in is stored, and so is the previous leader
      obtain ⟨y, -, hlast⟩ := Relation.TransGen.tail'_iff.mp hpath
      obtain ⟨d, hd⟩ := hlast.exists_stored
      obtain ⟨d', hd'⟩ := hprev
      have hsame : c = prev := eq_of_eq hown hdigests hd hd' heq
      exact Or.inr (hsame ▸ hpath)
  · rintro (heq | hpath)
    · have hround := (Certificate.eq_iff.mp heq).2.1
      exact ⟨leader, (hmem leader).mpr ⟨.refl, by omega⟩, heq⟩
    · have hlt := round_lt_of_path hrounds hpath
      exact ⟨prev, (hmem prev).mpr ⟨hpath.to_reflTransGen, by omega⟩,
        Certificate.eq_iff.mpr ⟨rfl, rfl, rfl⟩⟩

/-- Certificates of three rounds, each with the one before as its parent. -/
def threeRounds : DagMap :=
  (((∅ : DagMap).insertCertificate (Nat.pair 0 (Nat.pair 1 1)) (certifyNone 1 1)
    ).insertCertificate (Nat.pair 0 (Nat.pair 2 1)) (certifySecond 2 1)
    ).insertCertificate (Nat.pair 0 (Nat.pair 3 1)) (certifySecond 3 1)

theorem linked_iff_threeRounds :
    ∃ found, threeRounds.linked (certifySecond 3 1) (certifyNone 1 1) = some found ∧
      (found = true ↔ (certifySecond 3 1).eq (certifyNone 1 1) = true ∨
        Relation.TransGen threeRounds.Parent (certifySecond 3 1) (certifyNone 1 1)) := by
  refine linked_iff threeRounds twoAuthorities.hash _ _ (by decide +kernel) (by decide +kernel)
    (by decide +kernel) (fun round (hlow : 1 ≤ round) (hhigh : round < 3) => ?_)
    ⟨Nat.pair 0 (Nat.pair 1 1), by decide +kernel⟩
  have hround : round = 1 ∨ round = 2 := by omega
  rcases hround with rfl | rfl <;> decide +kernel

/-! ### `order_dag` flattens the uncommitted sub-dag -/

section Flatten

variable {lastCommitted : AList fun _ : ℕ => ℕ} {entries : List (ℕ × Certificate)}

/-- A certificate that `order_dag` follows from `y`, with the digest it is stored
under. -/
def Followed (dag : DagMap) (lastCommitted : AList fun _ : ℕ => ℕ) (y : Certificate)
    (e : ℕ × Certificate) : Prop :=
  ∃ round certificates, round + 1 = y.round ∧ dag.values round = some certificates ∧
    e ∈ certificates ∧ e.1 ∈ y.parents ∧ lastCommitted.lookup e.2.origin ≠ some e.2.round

lemma uncommittedParent_iff :
    dag.UncommittedParent lastCommitted y z ↔ ∃ d, dag.Followed lastCommitted y (d, z) := by
  constructor
  · rintro ⟨⟨round, certificates, d, hround, hvalues, hmem, hd⟩, hlast⟩
    exact ⟨d, round, certificates, hround, hvalues, hmem, hd, hlast⟩
  · rintro ⟨d, round, certificates, hround, hvalues, hmem, hd, hlast⟩
    exact ⟨⟨round, certificates, d, hround, hvalues, hmem, hd⟩, hlast⟩

lemma Followed.stored (h : dag.Followed lastCommitted y e) : e ∈ dag.stored := by
  obtain ⟨round, certificates, -, hvalues, hmem, -⟩ := h
  exact mem_stored_iff.mpr ⟨round, certificates, hvalues, hmem⟩

/-- What an expansion finds. -/
lemma exists_of_edge {overflowChecks : Bool}
    (h : Edge (fun e => dag.uncommittedParents overflowChecks lastCommitted e.2) e e') :
    ∃ round certificates parent, roundBefore overflowChecks e.2.round = some round ∧
      dag.values round = some certificates ∧
      certificates.find? (fun e => e.1 = parent) = some e' ∧ parent ∈ e.2.parents ∧
      lastCommitted.lookup e'.2.origin ≠ some e'.2.round := by
  obtain ⟨zs, hzs, hz⟩ := h
  simp only [uncommittedParents] at hzs
  split at hzs
  · cases hzs
    cases hz
  · obtain ⟨round, hround, rfl⟩ := Option.map_eq_some_iff.mp hzs
    obtain ⟨parent, hparent, hfound⟩ := List.mem_filterMap.mp hz
    split at hfound
    · cases hfound
    · rename_i c hc
      split at hfound
      · cases hfound
      · rename_i hlast
        cases hfound
        obtain ⟨certificates, hvalues, hfind⟩ := Option.bind_eq_some_iff.mp hc
        exact ⟨round, certificates, parent, hround, hvalues, hfind, hparent, hlast⟩

lemma stored_of_edge {overflowChecks : Bool}
    (h : Edge (fun e => dag.uncommittedParents overflowChecks lastCommitted e.2) e e') :
    e' ∈ dag.stored := by
  obtain ⟨round, certificates, parent, -, hvalues, hfind, -⟩ := exists_of_edge h
  exact mem_stored_iff.mpr ⟨round, certificates, hvalues, List.mem_of_find?_eq_some hfind⟩

/-- With overflow checks there is a round before unless the round is zero. -/
lemma roundBefore_eq_some {before : ℕ} :
    roundBefore true round = some before ↔ before + 1 = round := by
  rw [roundBefore, if_pos rfl]
  split
  · exact iff_of_false (fun h => nomatch h) (by omega)
  · rw [Option.some_inj]
    omega

/-- The expansion of a certificate finds what is to be followed: a digest stands
for one certificate. -/
lemma edge_iff (hdigests : dag.DistinctDigests) :
    Edge (fun e => dag.uncommittedParents true lastCommitted e.2) e e' ↔
      dag.Followed lastCommitted e.2 e' := by
  constructor
  · intro h
    obtain ⟨round, certificates, parent, hround, hvalues, hfind, hparent, hlast⟩ :=
      exists_of_edge h
    obtain ⟨hmem, hdigest⟩ := (find?_digest hdigests hvalues).mp hfind
    exact ⟨round, certificates, roundBefore_eq_some.mp hround, hvalues, hmem,
      hdigest ▸ hparent, hlast⟩
  · rintro ⟨round, certificates, hround, hvalues, hmem, hparent, hlast⟩
    have hne : e.2.parents ≠ [] := List.ne_nil_of_mem hparent
    refine ⟨_, (if_neg hne).trans (by rw [roundBefore_eq_some.mpr hround, Option.map_some]), ?_⟩
    refine List.mem_filterMap.mpr ⟨e'.1, hparent, ?_⟩
    rw [hvalues, Option.bind_some, (find?_digest hdigests hvalues).mpr ⟨hmem, rfl⟩]
    exact if_neg hlast

/-- What the traversal reaches, without the digests. -/
lemma reach_of_reach_pair (hdigests : dag.DistinctDigests)
    (h : Relation.ReflTransGen (Edge fun e => dag.uncommittedParents true lastCommitted e.2) e e') :
    Relation.ReflTransGen (dag.UncommittedParent lastCommitted) e.2 e'.2 :=
  h.lift Prod.snd fun _ b hab => uncommittedParent_iff.mpr ⟨b.1, (edge_iff hdigests).mp hab⟩

lemma exists_reach_pair (hdigests : dag.DistinctDigests) (d : ℕ)
    (h : Relation.ReflTransGen (dag.UncommittedParent lastCommitted) y z) :
    ∃ d', Relation.ReflTransGen (Edge fun e => dag.uncommittedParents true lastCommitted e.2) (d, y)
      (d', z) := by
  induction h with
  | refl => exact ⟨d, .refl⟩
  | tail _ hz ih =>
      obtain ⟨d₁, hreach⟩ := ih
      obtain ⟨d', hfollowed⟩ := uncommittedParent_iff.mp hz
      exact ⟨d', hreach.tail ((edge_iff hdigests).mpr hfollowed)⟩

lemma round_lt_of_pair (hrounds : dag.OwnRounds) (hdigests : dag.DistinctDigests)
    (h : Relation.TransGen (Edge fun e => dag.uncommittedParents true lastCommitted e.2) e e') :
    e'.2.round < e.2.round :=
  round_lt_of_path hrounds (h.lift Prod.snd fun _ b hab =>
    (uncommittedParent_iff.mpr ⟨b.1, (edge_iff hdigests).mp hab⟩).1)

lemma mem_ordered_of_reach (hdigests : dag.DistinctDigests)
    (hordered : dag.ordered true lastCommitted leader = some entries)
    (h : Relation.ReflTransGen (Edge fun e => dag.uncommittedParents true lastCommitted e.2)
      (0, leader) e) : e ∈ entries := by
  refine mem_traverse_of_reflTransGen (fun _ _ _ _ hz hz' hdigest => ?_) hordered h
  exact hdigests.eq_of_digest ((edge_iff hdigests).mp hz).stored ((edge_iff hdigests).mp hz').stored
    hdigest

/-- What the loop visits is what the leader reaches. -/
lemma mem_ordered_iff (hdigests : dag.DistinctDigests)
    (hordered : dag.ordered true lastCommitted leader = some entries) :
    x ∈ entries.map Prod.snd ↔
      Relation.ReflTransGen (dag.UncommittedParent lastCommitted) leader x := by
  constructor
  · intro hx
    obtain ⟨e, he, rfl⟩ := List.mem_map.mp hx
    exact reach_of_reach_pair hdigests (reflTransGen_of_mem_traverse hordered he)
  · intro hx
    obtain ⟨d, hd⟩ := exists_reach_pair hdigests 0 hx
    exact List.mem_map.mpr ⟨(d, x), mem_ordered_of_reach hdigests hordered hd, rfl⟩

/-- A certificate can be expanded unless it has parents in round zero. -/
lemma exists_uncommittedParents_iff :
    (∃ zs, dag.uncommittedParents true lastCommitted y = some zs) ↔
      (y.round = 0 → y.parents = []) := by
  rw [uncommittedParents, roundBefore, if_pos rfl]
  split
  · rename_i hnil
    exact iff_of_true ⟨[], rfl⟩ fun _ => hnil
  · rename_i hnil
    split
    · rename_i hround
      exact iff_of_false (fun ⟨_, hzs⟩ => nomatch hzs) fun h => hnil (h hround)
    · rename_i hround
      exact iff_of_true ⟨_, rfl⟩ fun h => absurd h hround

/-- Without parents in round zero, checking for overflows makes no difference. -/
lemma uncommittedParents_eq_checked (h : y.round = 0 → y.parents = []) (overflowChecks : Bool) :
    dag.uncommittedParents true lastCommitted y =
      dag.uncommittedParents overflowChecks lastCommitted y := by
  rw [uncommittedParents, uncommittedParents]
  split
  · rfl
  · rename_i hne
    rw [roundBefore, roundBefore, if_neg fun hround => hne (h hround),
      if_neg fun hround => hne (h hround)]

lemma ordered_eq_checked (hdigests : dag.DistinctDigests)
    (h : ∀ y, Relation.ReflTransGen (dag.UncommittedParent lastCommitted) leader y →
      y.round = 0 → y.parents = []) (overflowChecks : Bool) :
    dag.ordered overflowChecks lastCommitted leader = dag.ordered true lastCommitted leader := by
  refine (traverse_congr (P := fun e : ℕ × Certificate =>
    Relation.ReflTransGen (dag.UncommittedParent lastCommitted) leader e.2)
    (fun e he => uncommittedParents_eq_checked (h e.2 he) overflowChecks) ?_
    (List.forall_mem_singleton.mpr .refl)).symm
  intro e e' he hedge
  exact he.tail (uncommittedParent_iff.mpr ⟨e'.1, (edge_iff hdigests).mp hedge⟩)

/-- A certificate is stored once: its round and its origin say where. -/
lemma eq_of_snd_eq (hrounds : dag.OwnRounds) (horigins : dag.OwnOrigins) (he : e ∈ dag.stored)
    (he' : e' ∈ dag.stored) (hsnd : e.2 = e'.2) : e = e' := by
  obtain ⟨round, authorities, name, hround, hname⟩ := mem_stored_iff'.mp he
  obtain ⟨round', authorities', name', hround', hname'⟩ := mem_stored_iff'.mp he'
  have hat := hrounds _ (AList.mem_lookup_iff.mp hround) _ (AList.mem_lookup_iff.mp hname)
  have hat' := hrounds _ (AList.mem_lookup_iff.mp hround') _ (AList.mem_lookup_iff.mp hname')
  have hof := horigins _ (AList.mem_lookup_iff.mp hround) _ (AList.mem_lookup_iff.mp hname)
  have hof' := horigins _ (AList.mem_lookup_iff.mp hround') _ (AList.mem_lookup_iff.mp hname')
  dsimp only at hat hat' hof hof'
  rw [← hat, hsnd, hat', hround'] at hround
  cases hround
  rw [← hof, hsnd, hof', hname'] at hname
  cases hname
  rfl

/-- With overflow checks the loop ends exactly if it meets no parents in round zero. -/
lemma exists_ordered_iff (hdigests : dag.DistinctDigests) :
    (∃ entries, dag.ordered true lastCommitted leader = some entries) ↔
      ∀ y, Relation.ReflTransGen (dag.UncommittedParent lastCommitted) leader y → y.round = 0 →
        y.parents = [] := by
  constructor
  · rintro ⟨entries, hordered⟩ y hy
    obtain ⟨d, hd⟩ := exists_reach_pair hdigests 0 hy
    have hmem := mem_ordered_of_reach hdigests hordered hd
    exact exists_uncommittedParents_iff.mp (exists_succ_of_mem_traverse hordered
      (fun _ hx => absurd hx List.not_mem_nil) _ hmem)
  · intro h
    refine exists_traverse_eq Prod.fst dag.stored (fun e he => ?_)
      (fun _ _ hedge => ((edge_iff hdigests).mp hedge).stored) (le_refl _)
    exact exists_uncommittedParents_iff.mpr (h e.2 (reach_of_reach_pair hdigests he))

/-- No certificate is visited twice. -/
lemma nodup_ordered (hrounds : dag.OwnRounds) (horigins : dag.OwnOrigins)
    (hdigests : dag.DistinctDigests)
    (hordered : dag.ordered true lastCommitted leader = some entries) :
    (entries.map Prod.snd).Nodup := by
  have hnodup := nodup_traverse
    (fun hcycle => lt_irrefl _ (round_lt_of_pair hrounds hdigests hcycle)) hordered
  refine hnodup.map_on fun e he e' he' hsnd => ?_
  have hreach := Relation.reflTransGen_iff_eq_or_transGen.mp
    (reflTransGen_of_mem_traverse hordered he)
  have hreach' := Relation.reflTransGen_iff_eq_or_transGen.mp
    (reflTransGen_of_mem_traverse hordered he')
  rcases hreach with rfl | hreach <;> rcases hreach' with rfl | hreach'
  · rfl
  · -- the leader is above all that it reaches
    exact absurd (congrArg Certificate.round hsnd) (round_lt_of_pair hrounds hdigests hreach').ne'
  · exact absurd (congrArg Certificate.round hsnd) (round_lt_of_pair hrounds hdigests hreach).ne
  · obtain ⟨_, -, hlast⟩ := Relation.TransGen.tail'_iff.mp hreach
    obtain ⟨_, -, hlast'⟩ := Relation.TransGen.tail'_iff.mp hreach'
    exact eq_of_snd_eq hrounds horigins ((edge_iff hdigests).mp hlast).stored
      ((edge_iff hdigests).mp hlast').stored hsnd

/-- **`order_dag` flattens the uncommitted sub-dag**: if no certificate that it reaches
has parents in round zero or a round at which `round + gc_depth` overflows, it returns the
certificates that it reaches and that are not too old, each once and by round. In all
other cases a build with overflow checks panics. -/
theorem orderDag_spec (dag : DagMap) (overflowChecks : Bool) (lastCommitted : AList fun _ : ℕ => ℕ)
    (lastCommittedRound gcDepth : ℕ) (leader : Certificate) (hrounds : dag.OwnRounds)
    (horigins : dag.OwnOrigins) (hdigests : dag.DistinctDigests) :
    ((∀ y, Relation.ReflTransGen (dag.UncommittedParent lastCommitted) leader y →
        (y.round = 0 → y.parents = []) ∧ y.round + gcDepth < 2 ^ 64) →
      ∃ xs, dag.orderDag overflowChecks lastCommitted lastCommittedRound gcDepth leader = some xs ∧
        xs.Nodup ∧ xs.Pairwise (fun a b => a.round ≤ b.round) ∧
        ∀ x, x ∈ xs ↔ lastCommittedRound ≤ x.round + gcDepth ∧
          Relation.ReflTransGen (dag.UncommittedParent lastCommitted) leader x) ∧
    (overflowChecks = true →
      ∀ y, Relation.ReflTransGen (dag.UncommittedParent lastCommitted) leader y →
        ¬((y.round = 0 → y.parents = []) ∧ y.round + gcDepth < 2 ^ 64) →
        dag.orderDag overflowChecks lastCommitted lastCommittedRound gcDepth leader = none) := by
  constructor
  · intro h
    -- First the traversal, which only the round-zero subtraction stops, then the sum by depth.
    obtain ⟨entries, hordered⟩ := (exists_ordered_iff hdigests).mpr fun y hy => (h y hy).1
    have hfits : ∀ x ∈ entries.map Prod.snd, x.round + gcDepth < 2 ^ 64 :=
      fun x hx => (h x ((mem_ordered_iff hdigests hordered).mp hx)).2
    refine ⟨_, by
      rw [orderDag, ordered_eq_checked hdigests fun y hy => (h y hy).1, hordered]
      dsimp only
      rw [retainDepth_of_fits fun _ => hfits, Option.map_some], ?_⟩
    refine ⟨?_, List.pairwise_insertionSort Certificate.roundLe _, fun x => ?_⟩
    · exact (List.perm_insertionSort _ _).nodup_iff.mpr
        ((nodup_ordered hrounds horigins hdigests hordered).filter _)
    · rw [(List.perm_insertionSort _ _).mem_iff, List.mem_filter, decide_eq_true_eq, and_comm,
        ← mem_ordered_iff hdigests hordered]
      refine and_congr_left fun hx => ?_
      rw [addDepth_of_lt (hfits x hx)]
  · rintro rfl y hy hbad
    rw [orderDag]
    cases hordered : dag.ordered true lastCommitted leader with
    | none => rfl
    | some entries =>
        have hzero := (exists_ordered_iff hdigests).mp ⟨entries, hordered⟩ y hy
        have hmem := (mem_ordered_iff hdigests hordered).mpr hy
        have hover : (entries.map Prod.snd).any (fun c => decide (2 ^ 64 ≤ c.round + gcDepth)) =
            true :=
          List.any_eq_true.mpr ⟨y, hmem, decide_eq_true (not_lt.mp fun hlt => hbad ⟨hzero, hlt⟩)⟩
        dsimp only
        rw [retainDepth, hover]
        rfl

theorem orderDag_spec_threeRounds :
    ∃ xs, threeRounds.orderDag true ∅ 0 50 (certifySecond 3 1) = some xs ∧
      xs.Nodup ∧ xs.Pairwise (fun a b => a.round ≤ b.round) ∧
      ∀ x, x ∈ xs ↔ 0 ≤ x.round + 50 ∧
        Relation.ReflTransGen (threeRounds.UncommittedParent ∅) (certifySecond 3 1) x := by
  refine (orderDag_spec threeRounds true ∅ 0 50 (certifySecond 3 1) (by decide +kernel)
    (by decide +kernel) (by decide +kernel)).1 fun y hy => ?_
  have hstored : ∀ e ∈ threeRounds.stored,
      (e.2.round = 0 → e.2.parents = []) ∧ e.2.round + 50 < 2 ^ 64 := by decide +kernel
  rcases Relation.ReflTransGen.cases_tail hy with rfl | ⟨_, -, hlast, -⟩
  · decide
  · obtain ⟨d, hd⟩ := hlast.exists_stored
    exact hstored (d, y) hd

/-- The genesis certificate of one authority. -/
def oneGenesis : DagMap :=
  (∅ : DagMap).insertCertificate (Nat.pair 0 (Nat.pair 0 1)) (certifyNone 0 1)

/-- A build with overflow checks neither finds the round before round zero nor adds the
depth to the largest of all rounds; the sum of a build without them is too small, and the
leader is missing. -/
theorem orderDag_overflow :
    oneGenesis.OwnRounds ∧ oneGenesis.OwnOrigins ∧ oneGenesis.DistinctDigests ∧
      oneGenesis.orderDag true ∅ 0 50 (certifySecond 0 0) = none ∧
      oneGenesis.orderDag true ∅ 50 50 (certifyNone (2 ^ 64 - 1) 0) = none ∧
      oneGenesis.orderDag false ∅ 50 50 (certifyNone (2 ^ 64 - 1) 0) = some [] := by
  decide +kernel

end Flatten

end DagMap

end StablecoinSystem
