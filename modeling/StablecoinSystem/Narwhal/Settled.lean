import StablecoinSystem.Narwhal.Agreement

/-!
Orders of delivery that settle the leaders of a round before it is prepared.

A leader round is prepared as soon as one of its slot leaders has its support, with
the slot leaders that have it by then, and neither this round nor a lower one is looked
at again. So two replicas prepare the same blocks if whatever slot leader gets support at
all has it by then (`Settled`): both prepare the blocks of the whole dag, up to some
round.

* `slotLeaders_eq`: the slot leaders of a round are found under a list of keys;
* `Planned.planNext`, `planned_plan`: a settled order plans the blocks of the whole
  dag;
* `agreement`: the outputs of two replicas whose orders are settled are prefixes of
  one another;
* `disagreement`: those of two others are not.
-/

namespace StablecoinSystem

namespace MP3Consensus

variable (con : MP3Consensus)

/-! ### Slot leaders -/

/-- The authority of a slot. -/
def slotKey (round slot : ℕ) : Option ℕ :=
  con.committee.keys[(round + slot) % 2 ^ 64 % con.committee.keys.length]?

/-- The authorities of the first slots of a round, each once. -/
def keysOfSlots (round : ℕ) (slots : List ℕ) : List ℕ :=
  (slots.filterMap (con.slotKey round)).eraseDups

/-- The certificate of an authority in a round, if it has enough support. -/
def supportedBy (round : ℕ) (dag : List Certificate) (name : ℕ) : Option Certificate :=
  (certificateOf round name dag).filter fun leader =>
    con.committee.validityThreshold ≤ con.support (round + 1) leader dag

variable {con} {round : ℕ} {dag : List Certificate} {leader : Certificate}

lemma eraseDups_append_singleton (keys : List ℕ) (key : ℕ) :
    (keys ++ [key]).eraseDups =
      if key ∈ keys then keys.eraseDups else keys.eraseDups ++ [key] := by
  rw [List.eraseDups_append]
  split
  · rename_i hmem
    simp [List.removeAll, hmem]
  · rename_i hnew
    simp [List.removeAll, hnew, List.eraseDups_cons]

lemma keysOfSlots_of_none {slots : List ℕ} {slot : ℕ} (h : con.slotKey round slot = none) :
    con.keysOfSlots round (slots ++ [slot]) = con.keysOfSlots round slots := by
  rw [keysOfSlots, keysOfSlots, List.filterMap_append, List.filterMap_cons_none h,
    List.filterMap_nil, List.append_nil]

lemma keysOfSlots_of_mem {slots : List ℕ} {slot key : ℕ} (h : con.slotKey round slot = some key)
    (hmem : key ∈ con.keysOfSlots round slots) :
    con.keysOfSlots round (slots ++ [slot]) = con.keysOfSlots round slots := by
  rw [keysOfSlots, keysOfSlots, List.filterMap_append, List.filterMap_cons_some h,
    List.filterMap_nil, eraseDups_append_singleton, if_pos (List.mem_eraseDups.mp hmem)]

lemma keysOfSlots_of_notMem {slots : List ℕ} {slot key : ℕ}
    (h : con.slotKey round slot = some key) (hnew : key ∉ con.keysOfSlots round slots) :
    con.keysOfSlots round (slots ++ [slot]) = con.keysOfSlots round slots ++ [key] := by
  rw [keysOfSlots, keysOfSlots, List.filterMap_append, List.filterMap_cons_some h,
    List.filterMap_nil, eraseDups_append_singleton,
    if_neg fun hmem => hnew (List.mem_eraseDups.mpr hmem)]

/-- The slot leaders of a round are the certificates of the authorities of its slots. -/
lemma slotLeaders_eq (round : ℕ) (dag : List Certificate) :
    con.slotLeaders round dag =
      (con.keysOfSlots round (List.range con.slots)).filterMap fun key =>
        certificateOf round key dag := by
  refine (foldl_induction (f := con.electSlot round dag) (I := fun slots elected =>
    elected.1 = (con.keysOfSlots round slots).filterMap (fun key => certificateOf round key dag) ∧
      ∀ key, key ∈ elected.2 ↔
        key ∈ con.keysOfSlots round slots ∧ certificateOf round key dag ≠ none)
    ⟨rfl, fun _ => iff_of_false List.not_mem_nil fun h => absurd h.1 List.not_mem_nil⟩ ?_).1
  rintro slots slot post - ⟨hleaders, hkeys⟩
  generalize slots.foldl (con.electSlot round dag) ([], []) = elected at hleaders hkeys ⊢
  rw [electSlot, ← slotKey]
  cases hkey : con.slotKey round slot with
  | none =>
      rw [keysOfSlots_of_none hkey]
      exact ⟨hleaders, hkeys⟩
  | some key =>
      dsimp only
      by_cases hmem : key ∈ con.keysOfSlots round slots
      · -- the key is in use, or has no certificate
        rw [keysOfSlots_of_mem hkey hmem]
        by_cases hused : key ∈ elected.2
        · rw [if_pos hused]
          exact ⟨hleaders, hkeys⟩
        · have hnone : certificateOf round key dag = none :=
            by_contra fun hsome => hused ((hkeys key).mpr ⟨hmem, hsome⟩)
          rw [if_neg hused, hnone]
          exact ⟨hleaders, hkeys⟩
      · have hunused : key ∉ elected.2 := fun hused => hmem ((hkeys key).mp hused).1
        rw [keysOfSlots_of_notMem hkey hmem, if_neg hunused, List.filterMap_append]
        cases hcert : certificateOf round key dag with
        | none =>
            refine ⟨by simp [hleaders, hcert], fun k => (hkeys k).trans ?_⟩
            rw [List.mem_append, List.mem_singleton]
            refine and_congr_left fun hk => ⟨Or.inl, fun h => h.resolve_right ?_⟩
            rintro rfl
            exact hk hcert
        | some c =>
            refine ⟨by simp [hleaders, hcert], fun k => ?_⟩
            rw [List.mem_append, List.mem_append, List.mem_singleton, hkeys]
            constructor
            · rintro (⟨hk, hsome⟩ | rfl)
              · exact ⟨Or.inl hk, hsome⟩
              · exact ⟨Or.inr rfl, by simp [hcert]⟩
            · rintro ⟨hk | hk, hsome⟩
              · exact Or.inl ⟨hk, hsome⟩
              · exact Or.inr hk

lemma supportedLeaders_eq (round : ℕ) (dag : List Certificate) :
    con.supportedLeaders round dag =
      (con.keysOfSlots round (List.range con.slots)).filterMap (con.supportedBy round dag) := by
  rw [supportedLeaders, slotLeaders_eq, List.filter_filterMap]
  rfl

lemma supportedBy_eq_some {name : ℕ} :
    con.supportedBy round dag name = some leader ↔ certificateOf round name dag = some leader ∧
      con.committee.validityThreshold ≤ con.support (round + 1) leader dag := by
  rw [supportedBy, Option.filter_eq_some_iff, decide_eq_true_eq]

/-- A supported leader is found under its origin. -/
lemma mem_supportedLeaders : leader ∈ con.supportedLeaders round dag ↔
    leader.origin ∈ con.keysOfSlots round (List.range con.slots) ∧
      con.supportedBy round dag leader.origin = some leader := by
  rw [supportedLeaders_eq, List.mem_filterMap]
  constructor
  · rintro ⟨name, hname, hleader⟩
    obtain ⟨-, -, rfl⟩ := mem_of_certificateOf (supportedBy_eq_some.mp hleader).1
    exact ⟨hname, hleader⟩
  · rintro ⟨hname, hleader⟩
    exact ⟨_, hname, hleader⟩

/-! ### What is delivered and the whole dag -/

variable (con) in
/-- The dag once certificates have been received. -/
def dagOf (order : List Certificate) : List Certificate :=
  order.foldl (fun dag c => insertCertificate c dag) con.genesis

/-- The supported leaders of a round of the whole dag. -/
def Dag.leaders (dag : Dag con) (round : ℕ) : List Certificate :=
  con.supportedLeaders round (con.genesis ++ dag.certificates)

/-- The blocks of the whole dag up to a round. -/
def Dag.blocks (dag : Dag con) : ℕ → List MacroBlock
  | 0 => []
  | round + 1 =>
      match dag.leaders (round + 1) with
      | [] => dag.blocks round
      | leaders =>
          dag.blocks round ++ [⟨(dag.blocks round).length, round + 1, ⟨round + 1, leaders⟩⟩]

/-- Whenever a certificate leaves the round before it with a slot leader that has its
support, the slot leaders of this round and of the lower ones that have it in the whole
dag have it. -/
def Settled (dag : Dag con) (order : List Certificate) : Prop :=
  ForallSplit (fun pre c => con.supportedLeaders (c.round - 1) (con.dagOf (pre ++ [c])) ≠ [] →
    ∀ round < c.round, 1 ≤ round → ∀ leader ∈ dag.leaders round,
      leader ∈ con.supportedLeaders round (con.dagOf (pre ++ [c]))) order

instance (dag : Dag con) (order : List Certificate) : Decidable (Settled dag order) :=
  inferInstanceAs (Decidable (ForallSplit _ _))

lemma dagOf_append_singleton (order : List Certificate) (c : Certificate) :
    con.dagOf (order ++ [c]) = insertCertificate c (con.dagOf order) :=
  List.foldl_append

lemma dag_plan (order : List Certificate) : (con.plan order).dag = con.dagOf order := by
  refine foldl_induction (f := con.planNext) (I := fun pre plan => plan.dag = con.dagOf pre) rfl ?_
  intro pre c post _ hdag
  rw [dagOf_append_singleton, ← hdag, planNext]
  split <;> rfl

lemma mem_of_mem_dagOf {c : Certificate} {order : List Certificate} (h : c ∈ con.dagOf order) :
    c ∈ con.genesis ++ order := by
  refine foldl_induction (f := fun dag c => insertCertificate c dag)
    (I := fun pre dag => ∀ c ∈ dag, c ∈ con.genesis ++ pre) (fun c hc => ?_) ?_ c h
  · rwa [List.append_nil]
  · intro pre x post _ hpre c hc
    rw [← List.append_assoc]
    rcases mem_insertCertificate.mp hc with rfl | ⟨hc, -⟩
    · exact List.mem_append_right _ (List.mem_singleton_self c)
    · exact List.mem_append_left _ (hpre c hc)

lemma nodup_dagOf (order : List Certificate) : (con.dagOf order).Nodup := by
  refine foldl_induction (f := fun dag c => insertCertificate c dag)
    (I := fun _ dag => dag.Nodup) ?_ fun pre x post _ hpre => ?_
  · have hkeys : con.committee.keys.Nodup := Committee.nodup_keys
    exact hkeys.map fun _ _ h => congrArg Certificate.origin h
  · refine List.nodup_cons.mpr ⟨fun hmem => ?_, hpre.filter _⟩
    exact of_decide_eq_true (List.mem_filter.mp hmem).2 ⟨rfl, rfl⟩

lemma atRound_insertCertificate_of_ne {c : Certificate} (h : round ≠ c.round)
    (dag : List Certificate) : atRound round (insertCertificate c dag) = atRound round dag := by
  rw [insertCertificate, atRound, List.filter_cons_of_neg (by simpa using h.symm), atRound,
    List.filter_filter]
  refine List.filter_congr fun x _ => ?_
  by_cases hx : x.round = round
  · simp [hx, h]
  · simp [hx]

/-- A certificate of a part of a dag is found under its round and origin. -/
lemma Dag.certificateOf_of_mem (whole : Dag con)
    (hsub : ∀ c ∈ dag, c ∈ con.genesis ++ whole.certificates) (hmem : leader ∈ dag) :
    certificateOf leader.round leader.origin dag = some leader := by
  refine (find?_eq_some_iff fun x hx y hy hxname hyname => ?_).mpr
    ⟨mem_atRound.mpr ⟨hmem, rfl⟩, decide_eq_true rfl⟩
  obtain ⟨hx, hxround⟩ := mem_atRound.mp hx
  obtain ⟨hy, hyround⟩ := mem_atRound.mp hy
  exact whole.unequivocal_append x (hsub x hx) y (hsub y hy)
    ((of_decide_eq_true hxname).trans (of_decide_eq_true hyname).symm)
    (hxround.trans hyround.symm)

namespace Dag.Fits

variable {whole : Dag con} {order : List Certificate}

/-- What is supported in a part of the dag is supported in the whole dag. -/
lemma supportedBy_whole (h : whole.Fits) (hnodup : dag.Nodup)
    (hsub : ∀ c ∈ dag, c ∈ con.genesis ++ whole.certificates) {name : ℕ}
    (hleader : con.supportedBy round dag name = some leader) :
    con.supportedBy round (con.genesis ++ whole.certificates) name = some leader := by
  obtain ⟨hcert, hsupport⟩ := supportedBy_eq_some.mp hleader
  refine supportedBy_eq_some.mpr ⟨?_, le_trans hsupport (h.support_mono hnodup hsub)⟩
  obtain ⟨hmem, rfl, rfl⟩ := mem_of_certificateOf hcert
  exact whole.certificateOf_of_mem (fun _ hc => hc) (hsub leader hmem)

/-- A part of the dag that supports the leaders of a round of the whole dag supports no
others. -/
lemma supportedLeaders_eq_leaders (h : whole.Fits) (hnodup : dag.Nodup)
    (hsub : ∀ c ∈ dag, c ∈ con.genesis ++ whole.certificates)
    (hsettled : ∀ leader ∈ whole.leaders round, leader ∈ con.supportedLeaders round dag) :
    con.supportedLeaders round dag = whole.leaders round := by
  rw [leaders, MP3Consensus.supportedLeaders_eq, MP3Consensus.supportedLeaders_eq]
  refine List.filterMap_congr fun name hname => ?_
  cases hwhole : con.supportedBy round (con.genesis ++ whole.certificates) name with
  | none =>
      cases hleader : con.supportedBy round dag name with
      | none => rfl
      | some leader => exact (h.supportedBy_whole hnodup hsub hleader).symm.trans hwhole
  | some leader =>
      obtain ⟨-, -, rfl⟩ := mem_of_certificateOf (supportedBy_eq_some.mp hwhole).1
      exact (mem_supportedLeaders.mp
        (hsettled leader (mem_supportedLeaders.mpr ⟨hname, hwhole⟩))).2

/-- A dag that has certificates has stake. -/
lemma validityThreshold_pos (h : whole.Fits) {c : Certificate} (hc : c ∈ whole.certificates) :
    0 < con.committee.validityThreshold := by
  rw [Nat.pos_iff_ne_zero, Ne, ← Nat.le_zero, Committee.validityThreshold_le_iff h.stakes]
  intro hzero
  have hstake : ∀ name, con.committee.stake name = 0 := by
    intro name
    have hle := con.committee.sum_map_stake_le (List.nodup_singleton name)
    simpa using le_trans hle hzero
  have hquorum := whole.quorum c hc
  rw [parentStake] at hquorum
  simp [hstake, Committee.quorumThreshold] at hquorum

/-- A certificate that has just been delivered has no support. -/
lemma not_supported_self (h : whole.Fits) {c : Certificate}
    (hd : Delivered whole (order ++ [c])) (hnew : c ∉ order) :
    con.supportedBy c.round (con.dagOf (order ++ [c])) c.origin ≠ some c := by
  intro hsupported
  have hc : c ∈ whole.certificates := hd.subset c (by simp)
  have hnone : ∀ x ∈ atRound (c.round + 1) (con.dagOf (order ++ [c])),
      con.digest c ∉ x.parents := by
    intro x hx hparent
    obtain ⟨hmem, hround⟩ := mem_atRound.mp hx
    have hxorder : x ∈ con.genesis ++ order := by
      rcases List.mem_append.mp (mem_of_mem_dagOf hmem) with hx | hx
      · exact List.mem_append_left _ hx
      · rcases List.mem_append.mp hx with hx | hx
        · exact List.mem_append_right _ hx
        · rw [List.mem_singleton.mp hx] at hround
          omega
    have hdelivered := (hd.of_append.parent_mem hxorder (List.mem_append_right _ hc) hparent).1
    rcases List.mem_append.mp hdelivered with hgenesis | hold
    · have hzero := Certificate.round_of_mem_genesis hgenesis
      have hpos := whole.rounds c hc
      omega
    · exact hnew hold
  have hsupport := (supportedBy_eq_some.mp hsupported).2
  have hnil : (atRound (c.round + 1) (con.dagOf (order ++ [c]))).filter
      (fun x => decide (con.digest c ∈ x.parents)) = [] :=
    List.filter_eq_nil_iff.mpr fun x hx => by simpa using hnone x hx
  rw [support, supportStake, hnil] at hsupport
  exact absurd hsupport (not_le.mpr (h.validityThreshold_pos hc))

end Dag.Fits

/-! ### The blocks of a settled order -/

lemma Dag.blocks_prefix (whole : Dag con) {m n : ℕ} (hle : m ≤ n) :
    whole.blocks m <+: whole.blocks n := by
  induction n, hle using Nat.le_induction with
  | base => exact List.prefix_refl _
  | succ n _ ih =>
      rw [Dag.blocks]
      split
      · exact ih
      · exact ih.trans (List.prefix_append _ _)

/-- Rounds without leaders have no blocks. -/
lemma Dag.blocks_eq_of_nil (whole : Dag con) {m n : ℕ} (hle : m ≤ n)
    (hnil : ∀ round, m < round → round ≤ n → whole.leaders round = []) :
    whole.blocks n = whole.blocks m := by
  induction n, hle using Nat.le_induction with
  | base => rfl
  | succ n hmn ih =>
      rw [Dag.blocks, hnil (n + 1) (by omega) (le_refl _)]
      exact ih fun round hlow hhigh => hnil round hlow (by omega)

/-- The plan has the blocks of the whole dag up to the last round prepared, and no
round above has a leader with its support. -/
structure Planned (whole : Dag con) (plan : Plan) : Prop where
  blocks : plan.blocks = whole.blocks plan.lastPreparedRound
  above : ∀ round, plan.lastPreparedRound < round → con.supportedLeaders round plan.dag = []

variable {whole : Dag con} {plan : Plan} {order : List Certificate} {c : Certificate}

/-- A round above stays without leaders, unless it is the one that the certificate
supports. -/
lemma Planned.above_insert (h : Planned whole plan) (hfits : whole.Fits)
    (hdag : plan.dag = con.dagOf order) (hd : Delivered whole (order ++ [c])) (hnew : c ∉ order)
    (hround : plan.lastPreparedRound < round) (hne : round + 1 ≠ c.round) :
    con.supportedLeaders round (insertCertificate c plan.dag) = [] := by
  by_cases hsame : round = c.round
  · -- the new certificate has no support, and the others had none
    subst hsame
    rw [List.eq_nil_iff_forall_not_mem]
    intro leader hleader
    obtain ⟨hkey, hleader⟩ := mem_supportedLeaders.mp hleader
    obtain ⟨hcert, hsupport⟩ := supportedBy_eq_some.mp hleader
    obtain ⟨hmem, hlround, -⟩ := mem_of_certificateOf hcert
    rcases mem_insertCertificate.mp hmem with rfl | ⟨hmem, -⟩
    · rw [hdag, ← dagOf_append_singleton] at hleader
      exact hfits.not_supported_self hd hnew hleader
    · have hold : leader ∈ con.supportedLeaders c.round plan.dag := by
        refine mem_supportedLeaders.mpr ⟨hkey, supportedBy_eq_some.mpr ⟨?_, ?_⟩⟩
        · rw [← hlround]
          refine whole.certificateOf_of_mem (fun x hx => ?_) hmem
          rw [hdag] at hx
          exact hd.of_append.mem_dag (mem_of_mem_dagOf hx)
        · rwa [support, supportStake, atRound_insertCertificate_of_ne (by omega)] at hsupport
      rw [h.above _ hround] at hold
      exact List.not_mem_nil hold
  · rw [supportedLeaders_congr (atRound_insertCertificate_of_ne hsame plan.dag)
      (atRound_insertCertificate_of_ne hne plan.dag)]
    exact h.above round hround

lemma supportedLeaders_of_nextBlock_eq_none {lastPreparedRound height : ℕ}
    (h : con.nextBlock dag lastPreparedRound height (round + 1) = none) (hpos : 1 ≤ round)
    (hnew : lastPreparedRound < round) : con.supportedLeaders round dag = [] := by
  rw [nextBlock, if_neg (by omega), if_neg (by omega)] at h
  split at h
  · assumption
  · cases h

/-- A delivery in a settled order adds the next block of the whole dag, or nothing. -/
lemma Planned.planNext (h : Planned whole plan) (hfits : whole.Fits)
    (hdag : plan.dag = con.dagOf order) (hd : Delivered whole (order ++ [c])) (hnew : c ∉ order)
    (hsettled : con.supportedLeaders (c.round - 1) (con.dagOf (order ++ [c])) ≠ [] →
      ∀ round < c.round, 1 ≤ round → ∀ leader ∈ whole.leaders round,
        leader ∈ con.supportedLeaders round (con.dagOf (order ++ [c]))) :
    Planned whole (con.planNext plan c) := by
  rw [dagOf_append_singleton, ← hdag] at hsettled
  rw [MP3Consensus.planNext]
  split
  · rename_i hnone
    refine ⟨h.blocks, fun round (hround : plan.lastPreparedRound < round) => ?_⟩
    by_cases hne : round + 1 = c.round
    · rw [← hne] at hnone
      exact supportedLeaders_of_nextBlock_eq_none hnone (by omega) hround
    · exact h.above_insert hfits hdag hd hnew hround hne
  · rename_i block hblock
    obtain ⟨hlast, hsome, rfl⟩ := nextBlock_eq_some hblock
    have hsub : ∀ x ∈ insertCertificate c plan.dag, x ∈ con.genesis ++ whole.certificates := by
      intro x hx
      rw [hdag, ← dagOf_append_singleton] at hx
      exact hd.mem_dag (mem_of_mem_dagOf hx)
    have hnodup : (insertCertificate c plan.dag).Nodup := by
      rw [hdag, ← dagOf_append_singleton]
      exact nodup_dagOf _
    -- The order is settled, so the plan elects what the whole dag does.
    have hleaders : ∀ round < c.round, 1 ≤ round →
        con.supportedLeaders round (insertCertificate c plan.dag) = whole.leaders round :=
      fun round hlt hpos =>
        hfits.supportedLeaders_eq_leaders hnodup hsub (hsettled hsome round hlt hpos)
    refine ⟨?_, fun round (hround : c.round - 1 < round) => ?_⟩
    · -- no round in between has leaders, in the plan or in the whole dag
      obtain ⟨n, hn⟩ : ∃ n, c.round = n + 2 := ⟨c.round - 2, by omega⟩
      have hbetween : whole.blocks n = whole.blocks plan.lastPreparedRound := by
        refine whole.blocks_eq_of_nil (by omega) fun round hlow hhigh => ?_
        rw [← hleaders round (by omega) (by omega)]
        exact h.above_insert hfits hdag hd hnew hlow (by omega)
      have hround : c.round - 1 = n + 1 := by omega
      rw [hround] at hsome ⊢
      rw [hleaders (n + 1) (by omega) (by omega)] at hsome ⊢
      dsimp only
      rw [Dag.blocks, hbetween, ← h.blocks]
      split
      · rename_i hnil
        exact absurd hnil hsome
      · rfl
    · exact h.above_insert hfits hdag hd hnew (by omega) (by omega)

/-- **A settled order plans the blocks of the whole dag** up to some round. -/
theorem planned_plan (hfits : whole.Fits) (d : Delivery whole) (hsettled : Settled whole d.order) :
    Planned whole (con.plan d.order) := by
  refine foldl_induction (f := con.planNext) (I := fun _ plan => Planned whole plan) ?_ ?_
  · refine ⟨rfl, fun round (hround : 0 < round) => List.eq_nil_iff_forall_not_mem.mpr ?_⟩
    -- the genesis has no leaders above round zero
    intro leader hleader
    obtain ⟨hmem, hlround, -⟩ := mem_of_certificateOf
      (supportedBy_eq_some.mp (mem_supportedLeaders.mp hleader).2).1
    have hzero := Certificate.round_of_mem_genesis hmem
    omega
  · intro pre c post hsplit hpre
    have hnodup := d.nodup
    rw [hsplit, List.nodup_append] at hnodup
    have hd : Delivered whole (pre ++ [c]) := by
      have hall : Delivered whole d.order := ⟨d.subset, d.afterParents⟩
      rw [hsplit, List.append_cons] at hall
      exact hall.of_append
    exact hpre.planNext hfits (dag_plan pre) hd
      (fun hmem => hnodup.2.2 c hmem c (List.mem_cons_self ..) rfl) (hsettled pre c post hsplit)

/-- **Agreement.** If no sum overflows, the orders in which the certificates of a dag are
delivered to two replicas are settled, and each certificate is live when it is delivered,
the outputs are prefixes of one another. -/
theorem agreement (con : MP3Consensus) (dag : Dag con) (hfits : dag.Fits) (d d' : Delivery dag)
    (hsettled : Settled dag d.order) (hsettled' : Settled dag d'.order)
    (hlive : ForallSplit (fun pre c => (con.run pre).state.live con.gcDepth c = true) d.order)
    (hlive' : ForallSplit (fun pre c => (con.run pre).state.live con.gcDepth c = true) d'.order) :
    (con.run d.order).output <+: (con.run d'.order).output ∨
      (con.run d'.order).output <+: (con.run d.order).output := by
  refine prefix_output_of_committable d d' hfits.depth hlive hlive' ?_
  rw [committable, committable, (planned_plan hfits d hsettled).blocks,
    (planned_plan hfits d' hsettled').blocks]
  have hmono : ∀ {m n : ℕ}, m ≤ n → (dag.blocks m).take ((dag.blocks m).length - 2) <+:
      (dag.blocks n).take ((dag.blocks n).length - 2) := by
    intro m n hle
    have hprefix := dag.blocks_prefix hle
    have hlength := hprefix.length_le
    refine List.prefix_take_iff.mpr ⟨(List.take_prefix _ _).trans hprefix, ?_⟩
    rw [List.length_take]
    omega
  exact (Nat.le_total _ _).imp hmono hmono

/-! ### Two orders of one dag -/

/-- Three authorities, of stakes one, one and two, all of them slot leaders in
every round. -/
def threeAuthorities : MP3Consensus where
  committee := ⟨[(0, 1), (1, 1), (2, 2)], by decide⟩
  gcDepth := 50
  kSlots := 3
  overflowChecks := true
  hash := fun id round origin => Nat.pair id (Nat.pair round origin)
  collisionFree := pair_collisionFree

lemma sorted_all (round : ℕ) :
    ([0, 1, 2].map fun p => Nat.pair 0 (Nat.pair (round - 1) p)).Pairwise (· < ·) :=
  List.Pairwise.map _ (fun _ _ h => Nat.pair_lt_pair_right _ (Nat.pair_lt_pair_right _ h))
    (show [0, 1, 2].Pairwise (· < ·) by decide)

/-- The certificates of the given authorities, round after round, each with all three of
the round before as parents. -/
def layers (names : List ℕ) (rounds : ℕ) : List Certificate :=
  (List.range rounds).flatMap fun i => names.map fun name =>
    certify (i + 1) name [0, 1, 2] (sorted_all (i + 1))

/-- Five rounds of three authorities. -/
def fiveLayers : Dag threeAuthorities where
  certificates := layers [0, 1, 2] 5
  unequivocal := by decide +kernel
  rounds := by decide +kernel
  parents := by decide +kernel
  quorum := by decide +kernel

/-- All five rounds, the authorities in order. -/
def ascending : Delivery fiveLayers where
  order := layers [0, 1, 2] 5
  nodup := by decide +kernel
  subset := by decide +kernel
  afterParents := by decide +kernel

/-- Four rounds, the authorities in the opposite order. -/
def descending : Delivery fiveLayers where
  order := layers [2, 1, 0] 4
  nodup := by decide +kernel
  subset := by decide +kernel
  afterParents := by decide +kernel

theorem agreement_fiveLayers :
    ((threeAuthorities.run descending.order).output.length = 3 ∧
        (threeAuthorities.run ascending.order).output.length = 6) ∧
      ((threeAuthorities.run ascending.order).output <+:
          (threeAuthorities.run descending.order).output ∨
        (threeAuthorities.run descending.order).output <+:
          (threeAuthorities.run ascending.order).output) :=
  ⟨by decide +kernel, agreement _ _ (by decide +kernel) _ _ (by decide +kernel)
    (by decide +kernel) (by decide +kernel) (by decide +kernel)⟩

/-- The first round of a dag of three authorities. -/
def firstRound : List Certificate :=
  [certify 1 0 [0, 1, 2] (by decide), certify 1 1 [0, 1, 2] (by decide),
    certify 1 2 [0, 1, 2] (by decide)]

/-- The second round: authorities 0 and 1 refer to 1 and 2. -/
def lowerSecond : List Certificate :=
  [certify 2 0 [1, 2] (by decide), certify 2 1 [1, 2] (by decide)]

/-- The second round: authority 2 refers to 0 and itself. -/
def upperSecond : List Certificate := [certify 2 2 [0, 2] (by decide)]

/-- The rounds above. -/
def upperRounds : List Certificate :=
  [certify 3 0 [0, 1, 2] (by decide), certify 3 2 [0, 1, 2] (by decide),
    certify 4 2 [0, 2] (by decide)]

/-- Four rounds of three authorities. -/
def fourRounds : Dag threeAuthorities where
  certificates := firstRound ++ lowerSecond ++ upperSecond ++ upperRounds
  unequivocal := by decide +kernel
  rounds := by decide +kernel
  parents := by decide +kernel
  quorum := by decide +kernel

/-- The certificates of authorities 0 and 1 come first in the second round. -/
def lowerFirst : Delivery fourRounds where
  order := firstRound ++ lowerSecond ++ upperSecond ++ upperRounds
  nodup := by decide +kernel
  subset := by decide +kernel
  afterParents := by decide +kernel

/-- The certificate of authority 2 comes first in the second round. -/
def upperFirst : Delivery fourRounds where
  order := firstRound ++ upperSecond ++ lowerSecond ++ upperRounds
  nodup := by decide +kernel
  subset := by decide +kernel
  afterParents := by decide +kernel

/-- The leaders of the first round that the first certificates of the second
round support are 1 and 2 in one order, 0 and 2 in the other. They are not
looked at again, and the outputs differ from the start. -/
theorem disagreement :
    ¬((threeAuthorities.run lowerFirst.order).output <+:
        (threeAuthorities.run upperFirst.order).output ∨
      (threeAuthorities.run upperFirst.order).output <+:
        (threeAuthorities.run lowerFirst.order).output) := by
  decide +kernel

end MP3Consensus

end StablecoinSystem
