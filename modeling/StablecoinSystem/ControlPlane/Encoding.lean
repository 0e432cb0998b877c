import StablecoinSystem.ControlPlane.SlotLayer
import StablecoinSystem.Support.Framing

/-!
The byte strings that headers and proposals are hashed from (`types.rs`).

Both are three numbers of eight bytes and then blocks of one width, without tags
or counts: digests of 32 bytes in a proposal, entries of 40 bytes in a header,
after its parent if it has one.

* `MacroHeader.data_inj`, `BlockletProposal.data_inj`: either string determines
  its fields, since the length says how many blocks there are and whether a
  parent stands before them;
* `separated_iff`: a header and a proposal share their string exactly if the
  header has a multiple of four entries, whose bytes can then be cut into
  digests.
-/

namespace StablecoinSystem.ControlPlane

/-- The hash tells two byte strings apart. -/
def CollisionFree (hash : List UInt8 → DigestBytes) (x y : List UInt8) : Prop :=
  hash x = hash y → x = y

/-! ### Numbers and digests -/

@[simp] lemma length_toLeBytes (n : UInt64) : (toLeBytes n).length = 8 := by
  simp [toLeBytes]

/-- The first `w` bytes of a number, read back. -/
lemma fromLeBytes_map_range (w n : ℕ) :
    fromLeBytes ((List.range w).map fun i => UInt8.ofNat (n / 256 ^ i)) = n % 256 ^ w := by
  induction w generalizing n with
  | zero => simp [fromLeBytes, Nat.mod_one]
  | succ w ih =>
      have hrest : ((List.range w).map Nat.succ).map (fun i => UInt8.ofNat (n / 256 ^ i)) =
          (List.range w).map fun i => UInt8.ofNat (n / 256 / 256 ^ i) := by
        rw [List.map_map]
        refine List.map_congr_left fun i _ => ?_
        rw [Function.comp_apply, Nat.pow_succ', Nat.div_div_eq_div_mul]
      rw [List.range_succ_eq_map, List.map_cons, hrest]
      change (UInt8.ofNat (n / 256 ^ 0)).toNat + 256 * fromLeBytes _ = _
      rw [ih, Nat.pow_zero, Nat.div_one, UInt8.toNat_ofNat', Nat.pow_succ' (n := w), Nat.mod_mul]

lemma fromLeBytes_toLeBytes (n : UInt64) : fromLeBytes (toLeBytes n) = n.toNat := by
  rw [toLeBytes, fromLeBytes_map_range]
  exact Nat.mod_eq_of_lt n.toNat_lt

lemma toLeBytes_injective : Function.Injective toLeBytes := by
  intro n n' h
  have hbytes := congrArg fromLeBytes h
  rw [fromLeBytes_toLeBytes, fromLeBytes_toLeBytes] at hbytes
  exact UInt64.toNat.inj hbytes

lemma DigestBytes.bytes_injective : Function.Injective DigestBytes.bytes := by
  rintro ⟨bytes, _⟩ ⟨bytes', _⟩ h
  cases h
  rfl

/-- Three numbers in front of a byte string can be read back. -/
lemma fields_append_inj {a b c a' b' c' : UInt64} {x x' : List UInt8} :
    toLeBytes a ++ toLeBytes b ++ toLeBytes c ++ x =
        toLeBytes a' ++ toLeBytes b' ++ toLeBytes c' ++ x' ↔
      a = a' ∧ b = b' ∧ c = c' ∧ x = x' := by
  constructor
  · intro h
    obtain ⟨habc, hx⟩ := List.append_inj h (by simp)
    obtain ⟨hab, hc⟩ := List.append_inj habc (by simp)
    obtain ⟨ha, hb⟩ := List.append_inj hab (by simp)
    exact ⟨toLeBytes_injective ha, toLeBytes_injective hb, toLeBytes_injective hc, hx⟩
  · rintro ⟨rfl, rfl, rfl, rfl⟩
    rfl

/-! ### Proposals -/

namespace BlockletProposal

/-- The `data` that `BlockletProposal::compute_digest` hashes. -/
def data (view : View) (slot : Slot) (proposer : NodeId) (certs : List DigestBytes) :
    List UInt8 :=
  toLeBytes view ++ toLeBytes slot ++ toLeBytes proposer ++ certs.flatMap DigestBytes.bytes

lemma computeDigest_eq (hash : List UInt8 → DigestBytes) (view : View) (slot : Slot)
    (proposer : NodeId) (certs : List DigestBytes) :
    computeDigest hash view slot proposer certs = hash (data view slot proposer certs) :=
  rfl

/-- The string of a proposal determines its fields. -/
theorem data_inj {view view' : View} {slot slot' : Slot} {proposer proposer' : NodeId}
    {certs certs' : List DigestBytes} :
    data view slot proposer certs = data view' slot' proposer' certs' ↔
      view = view' ∧ slot = slot' ∧ proposer = proposer' ∧ certs = certs' := by
  have hcerts : Function.Injective (List.flatMap DigestBytes.bytes) :=
    flatMap_injective_of_width (by decide) DigestBytes.length_eq DigestBytes.bytes_injective
  rw [data, data, fields_append_inj, hcerts.eq_iff]

end BlockletProposal

/-! ### Headers -/

/-- What `MacroHeader::compute_digest` hashes of an entry. -/
def SlotEntry.bytes (e : SlotEntry) : List UInt8 := toLeBytes e.slot ++ e.slotQcDigest.bytes

lemma SlotEntry.length_bytes (e : SlotEntry) : e.bytes.length = 40 := by
  simp [bytes, e.slotQcDigest.length_eq]

lemma SlotEntry.bytes_injective : Function.Injective SlotEntry.bytes := by
  rintro ⟨slot, digest⟩ ⟨slot', digest'⟩ h
  obtain ⟨hslot, hdigest⟩ := List.append_inj h (by simp)
  rw [SlotEntry.mk.injEq]
  exact ⟨toLeBytes_injective hslot, DigestBytes.bytes_injective hdigest⟩

namespace MacroHeader

/-- What `MacroHeader::compute_digest` hashes of the parent. -/
def parentBytes : Option DigestBytes → List UInt8
  | none => []
  | some pqc => pqc.bytes

/-- The `data` that `MacroHeader::compute_digest` hashes. -/
def data (view : View) (height : Height) (leader : NodeId) (parentQc : Option DigestBytes)
    (entries : List SlotEntry) : List UInt8 :=
  toLeBytes view ++ toLeBytes height ++ toLeBytes leader ++
    (parentBytes parentQc ++ entries.flatMap SlotEntry.bytes)

lemma computeDigest_eq (hash : List UInt8 → DigestBytes) (view : View) (height : Height)
    (leader : NodeId) (parentQc : Option DigestBytes) (entries : List SlotEntry) :
    computeDigest hash view height leader parentQc entries =
      hash (data view height leader parentQc entries) := by
  rw [data, ← List.append_assoc]
  cases parentQc <;> rfl

lemma length_parentBytes (parentQc : Option DigestBytes) :
    (parentBytes parentQc).length = if parentQc.isSome then 32 else 0 := by
  cases parentQc with
  | none => rfl
  | some pqc => exact pqc.length_eq

lemma length_entries (entries : List SlotEntry) :
    (entries.flatMap SlotEntry.bytes).length = 40 * entries.length :=
  length_flatMap_of_width SlotEntry.length_bytes entries

/-- The parent and the entries can be read back: as 32 is no multiple of 40, the
length says whether there is a parent. -/
lemma parent_entries_inj {parentQc parentQc' : Option DigestBytes}
    {entries entries' : List SlotEntry} :
    parentBytes parentQc ++ entries.flatMap SlotEntry.bytes =
        parentBytes parentQc' ++ entries'.flatMap SlotEntry.bytes ↔
      parentQc = parentQc' ∧ entries = entries' := by
  have hentries : Function.Injective (List.flatMap SlotEntry.bytes) :=
    flatMap_injective_of_width (by decide) SlotEntry.length_bytes SlotEntry.bytes_injective
  constructor
  · intro h
    have hlength := congrArg List.length h
    rw [List.length_append, List.length_append, length_entries, length_entries,
      length_parentBytes, length_parentBytes] at hlength
    -- a parent more is 32 bytes more, which no number of entries makes up
    have hsome : parentQc.isSome = parentQc'.isSome := by
      cases hp : parentQc.isSome <;> cases hp' : parentQc'.isSome <;> simp [hp, hp'] at hlength ⊢
      all_goals omega
    obtain ⟨hparent, hrest⟩ := List.append_inj h (by simp [length_parentBytes, hsome])
    refine ⟨?_, hentries hrest⟩
    cases parentQc with
    | none => exact (Option.isNone_iff_eq_none.mp (by simpa using hsome)).symm
    | some pqc =>
        obtain ⟨pqc', rfl⟩ := Option.isSome_iff_exists.mp hsome.symm
        rw [DigestBytes.bytes_injective hparent]
  · rintro ⟨rfl, rfl⟩
    rfl

/-- The string of a header determines its fields. -/
theorem data_inj {view view' : View} {height height' : Height} {leader leader' : NodeId}
    {parentQc parentQc' : Option DigestBytes} {entries entries' : List SlotEntry} :
    data view height leader parentQc entries = data view' height' leader' parentQc' entries' ↔
      view = view' ∧ height = height' ∧ leader = leader' ∧ parentQc = parentQc' ∧
        entries = entries' := by
  rw [data, data, fields_append_inj, parent_entries_inj]

end MacroHeader

/-- **Digests bind their fields**: the strings that headers and proposals are
hashed from differ whenever a field does. -/
theorem digest_data_binds :
    (∀ (hash : List UInt8 → DigestBytes) (view : View) (height : Height) (leader : NodeId)
        (parentQc : Option DigestBytes) (entries : List SlotEntry),
      MacroHeader.computeDigest hash view height leader parentQc entries =
        hash (MacroHeader.data view height leader parentQc entries)) ∧
    (∀ (view view' : View) (height height' : Height) (leader leader' : NodeId)
        (parentQc parentQc' : Option DigestBytes) (entries entries' : List SlotEntry),
      MacroHeader.data view height leader parentQc entries =
          MacroHeader.data view' height' leader' parentQc' entries' ↔
        view = view' ∧ height = height' ∧ leader = leader' ∧ parentQc = parentQc' ∧
          entries = entries') ∧
    (∀ (hash : List UInt8 → DigestBytes) (view : View) (slot : Slot) (proposer : NodeId)
        (certs : List DigestBytes),
      BlockletProposal.computeDigest hash view slot proposer certs =
        hash (BlockletProposal.data view slot proposer certs)) ∧
    (∀ (view view' : View) (slot slot' : Slot) (proposer proposer' : NodeId)
        (certs certs' : List DigestBytes),
      BlockletProposal.data view slot proposer certs =
          BlockletProposal.data view' slot' proposer' certs' ↔
        view = view' ∧ slot = slot' ∧ proposer = proposer' ∧ certs = certs') :=
  ⟨MacroHeader.computeDigest_eq, fun _ _ _ _ _ _ _ _ _ _ => MacroHeader.data_inj,
    BlockletProposal.computeDigest_eq, fun _ _ _ _ _ _ _ _ => BlockletProposal.data_inj⟩

/-! ### Proposals and headers with the same string -/

/-- The proposal and the header are hashed from the same string. -/
def SameData (proposal : BlockletProposal) (header : MacroHeader) : Prop :=
  BlockletProposal.data proposal.view proposal.slot proposal.proposer proposal.availCerts =
    MacroHeader.data header.view header.height header.leader header.parentQc header.slotEntries

instance (proposal : BlockletProposal) (header : MacroHeader) :
    Decidable (SameData proposal header) :=
  inferInstanceAs (Decidable (_ = _))

/-- No proposal that `create_proposal` makes is hashed from the string of the
header. -/
def Separated (hash : List UInt8 → DigestBytes) (header : MacroHeader) : Prop :=
  ∀ view slot proposer availCerts config proposal,
    createProposal hash view slot proposer availCerts config = some proposal →
      ¬SameData proposal header

/-- What `create_proposal` makes. -/
lemma createProposal_eq_some {hash : List UInt8 → DigestBytes} {view : View} {slot : Slot}
    {proposer : NodeId} {availCerts : List DigestBytes} {config : MP3BFTConfig}
    {proposal : BlockletProposal}
    (h : createProposal hash view slot proposer availCerts config = some proposal) :
    proposal.digest = hash (BlockletProposal.data proposal.view proposal.slot proposal.proposer
      proposal.availCerts) := by
  obtain ⟨range, -, hproposal⟩ := Option.bind_eq_some_iff.mp h
  cases hproposal
  rfl

lemma createMacroHeader_digest (hash : List UInt8 → DigestBytes) (view : View) (height : Height)
    (leader : NodeId) (parentQc : Option MacroQC) (slotQcs : List SlotQC) :
    let header := createMacroHeader hash view height leader parentQc slotQcs
    header.digest = hash (MacroHeader.data header.view header.height header.leader
      header.parentQc header.slotEntries) :=
  MacroHeader.computeDigest_eq ..

/-- **A string that a proposal can have.** Digests of any 32 bytes may stand in a
proposal, so a header shares its string with one exactly if its blocks can be cut
into pieces of 32 bytes. -/
lemma separated_iff_not_dvd (hash : List UInt8 → DigestBytes) (header : MacroHeader) :
    Separated hash header ↔ ¬4 ∣ header.slotEntries.length := by
  have hlength : (MacroHeader.parentBytes header.parentQc ++
      header.slotEntries.flatMap SlotEntry.bytes).length =
        (if header.parentQc.isSome then 32 else 0) + 40 * header.slotEntries.length := by
    rw [List.length_append, MacroHeader.length_parentBytes, MacroHeader.length_entries]
  -- the parent is one piece of 32 bytes; four entries of 40 bytes make five
  have hdvd : 32 ∣ (MacroHeader.parentBytes header.parentQc ++
      header.slotEntries.flatMap SlotEntry.bytes).length ↔ 4 ∣ header.slotEntries.length := by
    rw [hlength]
    split <;> omega
  have honto : ∀ x : List UInt8, x.length = 32 → ∃ d : DigestBytes, d.bytes = x :=
    fun x hx => ⟨⟨x, hx⟩, rfl⟩
  rw [← hdvd, ← exists_flatMap_eq_iff DigestBytes.length_eq honto]
  constructor
  · rintro hsep ⟨certs, hcerts⟩
    -- a proposal with those digests can be made, whatever the view and slot
    obtain ⟨range, hrange⟩ : ∃ range,
        bucketRangeOf header.view header.height ⟨1, 1, certs.length⟩ = some range :=
      bucketRangeOf_isSome (le_refl _) (le_refl _) _ _
    refine hsep header.view header.height header.leader certs ⟨1, 1, certs.length⟩ _
      (by rw [createProposal, hrange]; rfl) ?_
    simp only [SameData, BlockletProposal.data, MacroHeader.data, List.take_length, hcerts]
  · rintro hnone view slot proposer availCerts config proposal - hsame
    rw [SameData, BlockletProposal.data, MacroHeader.data, fields_append_inj] at hsame
    exact hnone ⟨_, hsame.2.2.2⟩

section

variable {hash : List UInt8 → DigestBytes} {proposal : BlockletProposal} {header : MacroHeader}
  (hproposal : proposal.digest = hash (BlockletProposal.data proposal.view proposal.slot
    proposal.proposer proposal.availCerts))
  (hheader : header.digest = hash (MacroHeader.data header.view header.height header.leader
    header.parentQc header.slotEntries))

include hproposal hheader

/-- Votes of one node on a proposal and a header with the same string have the
same signature. -/
lemma signature_eq_of_sameData (h : SameData proposal header) (voter : NodeId) :
    (voteOnProposal hash proposal voter).signature =
      (voteOnHeader hash header voter).signature := by
  rw [voteOnProposal, voteOnHeader, hproposal, hheader, h]

/-- If the hash tells the strings and the digests apart, there are no other such
votes. -/
lemma signature_eq_iff
    (hdata : CollisionFree hash (BlockletProposal.data proposal.view proposal.slot
        proposal.proposer proposal.availCerts)
      (MacroHeader.data header.view header.height header.leader header.parentQc
        header.slotEntries))
    (hdigest : CollisionFree hash proposal.digest.bytes header.digest.bytes)
    (voter voter' : NodeId) :
    (voteOnProposal hash proposal voter).signature = (voteOnHeader hash header voter').signature ↔
      voter = voter' ∧ SameData proposal header := by
  constructor
  · intro h
    obtain ⟨hvoter, hhash⟩ := Signature.mk.injEq .. ▸ h
    have hsame := DigestBytes.bytes_injective (hdigest hhash)
    rw [hproposal, hheader] at hsame
    exact ⟨hvoter, hdata hsame⟩
  · rintro ⟨rfl, hsame⟩
    exact signature_eq_of_sameData hproposal hheader hsame voter

end

/-- **Domain separation.** No proposal shares its string with a header exactly if
the number of slot certificates of the header is not a multiple of four. A
signature on a proposal is one on the header exactly if the strings are the
same. -/
theorem separated_iff (hash : List UInt8 → DigestBytes) (view : View) (height : Height)
    (leader : NodeId) (parentQc : Option MacroQC) (slotQcs : List SlotQC) :
    let header := createMacroHeader hash view height leader parentQc slotQcs
    (Separated hash header ↔ ¬4 ∣ slotQcs.length) ∧
    ∀ view' slot proposer availCerts config proposal,
      createProposal hash view' slot proposer availCerts config = some proposal →
      CollisionFree hash (BlockletProposal.data proposal.view proposal.slot proposal.proposer
          proposal.availCerts)
        (MacroHeader.data header.view header.height header.leader header.parentQc
          header.slotEntries) →
      CollisionFree hash proposal.digest.bytes header.digest.bytes →
      ∀ voter voter',
        (voteOnProposal hash proposal voter).signature =
            (voteOnHeader hash header voter').signature ↔
          voter = voter' ∧ SameData proposal header := by
  intro header
  refine ⟨?_, fun view' slot proposer availCerts config proposal hcreate hdata hdigest =>
    signature_eq_iff (createProposal_eq_some hcreate)
      (createMacroHeader_digest hash view height leader parentQc slotQcs) hdata hdigest⟩
  rw [separated_iff_not_dvd]
  simp [header, createMacroHeader]

/-- A proposal and a header without certificates, of one view and one node: a vote
on the proposal is signed as one on the header is. -/
theorem shared_signature :
    ∃ proposal, createProposal Protocol.polynomialHash 1 0 2 [] ⟨8, 1024, 16⟩ = some proposal ∧
      SameData proposal (createMacroHeader Protocol.polynomialHash 1 0 2 none []) ∧
      (voteOnProposal Protocol.polynomialHash proposal 3).signature =
        (voteOnHeader Protocol.polynomialHash
          (createMacroHeader Protocol.polynomialHash 1 0 2 none []) 3).signature := by
  obtain ⟨range, hrange⟩ : ∃ range, bucketRangeOf 1 0 ⟨8, 1024, 16⟩ = some range :=
    bucketRangeOf_isSome (by decide) (by decide) 1 0
  have hcreate : createProposal Protocol.polynomialHash 1 0 2 [] ⟨8, 1024, 16⟩ =
      some ⟨1, 0, 2, [], range,
        BlockletProposal.computeDigest Protocol.polynomialHash 1 0 2 []⟩ := by
    rw [createProposal, hrange]
    rfl
  refine ⟨_, hcreate, rfl, ?_⟩
  exact signature_eq_of_sameData (createProposal_eq_some hcreate)
    (createMacroHeader_digest Protocol.polynomialHash 1 0 2 none []) rfl 3

end StablecoinSystem.ControlPlane
