import StablecoinSystem.ControlPlane.Encoding
import StablecoinSystem.Support.Loop
import StablecoinSystem.Support.Store

/-!
The data plane (`data_plane.rs`): batches of transactions and their certificates.

`submit_batch` stores a batch under the hash of its worker and transactions and
issues a certificate for it. `take_certs` hands certificates out in the order in
which they were issued. `get_transactions` looks a digest up among the
certificates that have not been handed out, and then among the batches.

* `Stocked`, `stocked_run`: what a data plane holds after any calls, and that
  every certificate is handed out once or still there;
* `retrieval_iff`: a batch comes back twice under its own digest until its
  certificate is handed out, and not at all under that of the certificate
  afterwards;
* `batch_identity_iff`: batches of one worker share an identity if their
  transactions concatenate to the same bytes, and then the later one replaces the
  other.
-/

namespace StablecoinSystem.ControlPlane

abbrev WorkerId := UInt64

/-- A transaction, opaque to consensus. -/
abbrev RawTx := List UInt8

/-- `Batch`. -/
structure Batch where
  id : DigestBytes
  workerId : WorkerId
  transactions : List RawTx
  deriving DecidableEq

/-- `AvailCert`. -/
structure AvailCert where
  batchDigest : DigestBytes
  workerId : WorkerId
  signatures : List Signature
  deriving DecidableEq

/-- The `data` that `Batch::new` hashes. -/
def Batch.data (workerId : WorkerId) (transactions : List RawTx) : List UInt8 :=
  toLeBytes workerId ++ transactions.flatten

/-- `AvailCert::verify`. -/
def AvailCert.verify (cert : AvailCert) (quorumThreshold : ℕ) : Bool :=
  decide (quorumThreshold ≤ cert.signatures.length)

section Hashed

variable (hash : List UInt8 → DigestBytes)

/-- `Batch::new`. -/
def Batch.new (workerId : WorkerId) (transactions : List RawTx) : Batch where
  id := hash (data workerId transactions)
  workerId := workerId
  transactions := transactions

/-- `AvailCert::digest`. -/
def AvailCert.digest (cert : AvailCert) : DigestBytes :=
  hash (cert.batchDigest.bytes ++ toLeBytes cert.workerId)

/-- The certificate of a batch, signed by as many members as make a quorum. -/
def AvailCert.issue (committee : Committee) (batch : Batch) : AvailCert where
  batchDigest := batch.id
  workerId := batch.workerId
  signatures := (committee.nodeIds.take committee.quorumThreshold).map fun nodeId =>
    Signature.sign hash nodeId batch.id.bytes

/-- `DataPlane`. -/
structure DataPlane where
  committee : Committee
  batches : Store DigestBytes Batch
  availCerts : List AvailCert

namespace DataPlane

/-- `DataPlane::new`. -/
def new (committee : Committee) : DataPlane := ⟨committee, Store.empty, []⟩

/-- `submit_batch`. -/
def submitBatch (dp : DataPlane) (workerId : WorkerId) (transactions : List RawTx) :
    DataPlane × AvailCert :=
  let batch := Batch.new hash workerId transactions
  let ac := AvailCert.issue hash dp.committee batch
  ({ dp with batches := dp.batches.insert batch.id batch, availCerts := dp.availCerts ++ [ac] }, ac)

/-- `get_batch`. -/
def getBatch (dp : DataPlane) (digest : DigestBytes) : Option Batch := dp.batches digest

/-- `take_certs`. -/
def takeCerts (dp : DataPlane) (limit : ℕ) : DataPlane × List AvailCert :=
  let n := min limit dp.availCerts.length
  ({ dp with availCerts := dp.availCerts.drop n }, dp.availCerts.take n)

/-- The transactions of the batch with the given digest, none if there is no such
batch. -/
def stored (dp : DataPlane) (digest : DigestBytes) : List RawTx :=
  match dp.getBatch digest with
  | some batch => batch.transactions
  | none => []

/-- `get_transactions`. -/
def getTransactions (dp : DataPlane) (certDigests : List DigestBytes) : List RawTx :=
  certDigests.flatMap fun digest =>
    (dp.availCerts.flatMap fun cert =>
      if cert.digest hash = digest ∨ cert.batchDigest = digest then dp.stored cert.batchDigest
      else []) ++ dp.stored digest

/-- A call that changes the data plane. -/
inductive Call where
  | submit (workerId : WorkerId) (transactions : List RawTx)
  | take (limit : ℕ)
  deriving DecidableEq

/-- The data plane and the certificates it has handed out, after a call. -/
def step (p : DataPlane × List AvailCert) : Call → DataPlane × List AvailCert
  | .submit workerId transactions => ((p.1.submitBatch hash workerId transactions).1, p.2)
  | .take limit => ((p.1.takeCerts limit).1, p.2 ++ (p.1.takeCerts limit).2)

/-- The data plane and the certificates it has handed out, after a sequence of
calls. -/
def run (committee : Committee) (calls : List Call) : DataPlane × List AvailCert :=
  calls.foldl (step hash) (new committee, [])

/-- The batches submitted. -/
def submitted (calls : List Call) : List Batch :=
  calls.filterMap fun call =>
    match call with
    | .submit workerId transactions => some (Batch.new hash workerId transactions)
    | .take _ => none

end DataPlane

end Hashed

namespace DataPlane

variable {hash : List UInt8 → DigestBytes} {committee : Committee} {calls : List Call}
  {p : DataPlane × List AvailCert}

@[simp] lemma submitted_submit (calls : List Call) (workerId : WorkerId)
    (transactions : List RawTx) :
    submitted hash (calls ++ [.submit workerId transactions]) =
      submitted hash calls ++ [Batch.new hash workerId transactions] := by
  simp [submitted]

@[simp] lemma submitted_take (calls : List Call) (limit : ℕ) :
    submitted hash (calls ++ [.take limit]) = submitted hash calls := by
  simp [submitted]

/-- What a data plane holds: under a digest a batch that was submitted with it,
under the digest of each batch submitted some batch, and the certificates that
have not been handed out. -/
structure Stocked (hash : List UInt8 → DigestBytes) (committee : Committee) (calls : List Call)
    (p : DataPlane × List AvailCert) : Prop where
  committee_eq : p.1.committee = committee
  submitted_of_getBatch : ∀ d b, p.1.getBatch d = some b → b ∈ submitted hash calls ∧ b.id = d
  exists_getBatch : ∀ b ∈ submitted hash calls, ∃ b', p.1.getBatch b.id = some b'
  certs : p.2 ++ p.1.availCerts = (submitted hash calls).map (AvailCert.issue hash committee)

namespace Stocked

lemma submit (h : Stocked hash committee calls p) (workerId : WorkerId)
    (transactions : List RawTx) :
    Stocked hash committee (calls ++ [.submit workerId transactions])
      (step hash p (.submit workerId transactions)) := by
  have hget : ∀ d, (step hash p (.submit workerId transactions)).1.getBatch d =
      if d = (Batch.new hash workerId transactions).id
      then some (Batch.new hash workerId transactions) else p.1.getBatch d :=
    fun d => Store.insert_apply p.1.batches _ d _
  refine ⟨h.committee_eq, fun d b hb => ?_, fun b hb => ?_, ?_⟩
  · rw [submitted_submit]
    rw [hget] at hb
    split at hb
    · cases hb
      exact ⟨by simp, by simp [*]⟩
    · obtain ⟨hmem, hid⟩ := h.submitted_of_getBatch d b hb
      exact ⟨List.mem_append_left _ hmem, hid⟩
  · rw [submitted_submit] at hb
    rw [hget]
    split
    · exact ⟨_, rfl⟩
    -- it is not the new batch that is looked for, so it is one submitted before
    · rename_i hne
      rcases List.mem_append.mp hb with hb | hb
      · exact h.exists_getBatch b hb
      · exact absurd (congrArg Batch.id (List.mem_singleton.mp hb)) hne
  · rw [submitted_submit, List.map_append, ← h.certs, List.append_assoc, ← h.committee_eq]
    rfl

lemma take (h : Stocked hash committee calls p) (limit : ℕ) :
    Stocked hash committee (calls ++ [.take limit]) (step hash p (.take limit)) := by
  refine ⟨h.committee_eq, ?_, ?_, ?_⟩
  · rw [submitted_take]
    exact h.submitted_of_getBatch
  · rw [submitted_take]
    exact h.exists_getBatch
  · rw [submitted_take, ← h.certs, step, takeCerts, List.append_assoc, List.take_append_drop]

end Stocked

/-- **What a data plane holds after any calls**, and what it has handed out: no
certificate is lost or handed out twice. -/
theorem stocked_run (hash : List UInt8 → DigestBytes) (committee : Committee) (calls : List Call) :
    Stocked hash committee calls (run hash committee calls) := by
  refine foldl_induction (I := fun calls p => Stocked hash committee calls p) ?_ ?_
  · refine ⟨rfl, fun d b hb => ?_, fun b hb => ?_, rfl⟩
    · cases hb
    · cases hb
  · rintro pre (⟨workerId, transactions⟩ | ⟨limit⟩) post - h
    · exact h.submit workerId transactions
    · exact h.take limit

/-- The certificates issued carry a quorum of signatures. -/
lemma verify_issue (hash : List UInt8 → DigestBytes) (committee : Committee) (batch : Batch) :
    (AvailCert.issue hash committee batch).verify committee.quorumThreshold = true := by
  have hquorum := quorumThreshold_le_size committee
  rw [Committee.size] at hquorum
  simp [AvailCert.verify, AvailCert.issue, hquorum]

/-! ### Retrieval -/

/-- The digests of the batches submitted and of their certificates are different
from one another. -/
structure Distinct (hash : List UInt8 → DigestBytes) (committee : Committee)
    (calls : List Call) : Prop where
  ids : ((submitted hash calls).map Batch.id).Nodup
  certs : ((submitted hash calls).map fun b =>
    (AvailCert.issue hash committee b).digest hash).Nodup
  apart : ∀ b ∈ submitted hash calls, ∀ b' ∈ submitted hash calls,
    (AvailCert.issue hash committee b).digest hash ≠ b'.id

instance (calls : List Call) : Decidable (Distinct hash committee calls) :=
  decidable_of_iff (((submitted hash calls).map Batch.id).Nodup ∧
      ((submitted hash calls).map fun b =>
        (AvailCert.issue hash committee b).digest hash).Nodup ∧
      ∀ b ∈ submitted hash calls, ∀ b' ∈ submitted hash calls,
        (AvailCert.issue hash committee b).digest hash ≠ b'.id)
    ⟨fun ⟨h₁, h₂, h₃⟩ => ⟨h₁, h₂, h₃⟩, fun h => ⟨h.ids, h.certs, h.apart⟩⟩

section

variable {b : Batch} (hs : Stocked hash committee calls p) (hd : Distinct hash committee calls)
  (hb : b ∈ submitted hash calls)

include hs hd

/-- No certificate is issued twice. -/
lemma nodup_certs : (p.2 ++ p.1.availCerts).Nodup := by
  rw [hs.certs]
  refine List.Nodup.of_map AvailCert.batchDigest ?_
  rw [List.map_map]
  exact hd.ids

include hb

lemma stored_id : p.1.stored b.id = b.transactions := by
  obtain ⟨b', hget⟩ := hs.exists_getBatch b hb
  obtain ⟨hb', hid⟩ := hs.submitted_of_getBatch _ _ hget
  rw [stored, hget, List.inj_on_of_nodup_map hd.ids hb' hb hid]

lemma stored_digest :
    p.1.stored ((AvailCert.issue hash committee b).digest hash) = [] := by
  rw [stored]
  split
  · rename_i b' hget
    obtain ⟨hb', hid⟩ := hs.submitted_of_getBatch _ _ hget
    exact absurd hid.symm (hd.apart b hb b' hb')
  · rfl

/-- The certificates that have not been handed out, looked up by a digest that
is that of one of them. -/
lemma flatMap_availCerts {d : DigestBytes}
    (hmatch : ∀ b' ∈ submitted hash calls, (AvailCert.issue hash committee b').digest hash = d ∨
      b'.id = d ↔ b' = b) :
    (p.1.availCerts.flatMap fun cert => if cert.digest hash = d ∨ cert.batchDigest = d
        then p.1.stored cert.batchDigest else []) =
      if AvailCert.issue hash committee b ∈ p.1.availCerts then b.transactions else [] := by
  have hinj : ∀ b' ∈ submitted hash calls, AvailCert.issue hash committee b' =
      AvailCert.issue hash committee b → b' = b := fun b' hb' h =>
    List.inj_on_of_nodup_map hd.ids hb' hb (congrArg AvailCert.batchDigest h)
  rw [← flatMap_ite_eq (nodup_certs hs hd).of_append_right]
  refine List.flatMap_congr fun cert hcert => ?_
  have hissued : cert ∈ (submitted hash calls).map (AvailCert.issue hash committee) :=
    hs.certs ▸ List.mem_append_right _ hcert
  obtain ⟨b', hb', rfl⟩ := List.mem_map.mp hissued
  have hiff : (AvailCert.issue hash committee b').digest hash = d ∨
      (AvailCert.issue hash committee b').batchDigest = d ↔
        AvailCert.issue hash committee b' = AvailCert.issue hash committee b :=
    (hmatch b' hb').trans ⟨congrArg _, hinj b' hb'⟩
  by_cases hcase : AvailCert.issue hash committee b' = AvailCert.issue hash committee b
  · rw [if_pos (hiff.mpr hcase), if_pos hcase, hcase]
    exact stored_id hs hd hb
  · rw [if_neg (fun h => hcase (hiff.mp h)), if_neg hcase]

/-- Under its own digest a batch comes back twice until its certificate is handed
out. -/
lemma getTransactions_id : p.1.getTransactions hash [b.id] =
    (if AvailCert.issue hash committee b ∈ p.1.availCerts then b.transactions else []) ++
      b.transactions := by
  have hmatch : ∀ b' ∈ submitted hash calls,
      (AvailCert.issue hash committee b').digest hash = b.id ∨ b'.id = b.id ↔ b' = b := by
    intro b' hb'
    constructor
    · rintro (h | h)
      · exact absurd h (hd.apart b' hb' b hb)
      · exact List.inj_on_of_nodup_map hd.ids hb' hb h
    · rintro rfl
      exact Or.inr rfl
  rw [getTransactions, List.flatMap_singleton, flatMap_availCerts hs hd hb hmatch,
    stored_id hs hd hb]

/-- Under the digest of its certificate a batch comes back until the certificate
is handed out. -/
lemma getTransactions_digest :
    p.1.getTransactions hash [(AvailCert.issue hash committee b).digest hash] =
      if AvailCert.issue hash committee b ∈ p.1.availCerts then b.transactions else [] := by
  have hmatch : ∀ b' ∈ submitted hash calls,
      (AvailCert.issue hash committee b').digest hash =
          (AvailCert.issue hash committee b).digest hash ∨
        b'.id = (AvailCert.issue hash committee b).digest hash ↔ b' = b := by
    intro b' hb'
    constructor
    · rintro (h | h)
      · exact List.inj_on_of_nodup_map hd.certs hb' hb h
      · exact absurd h.symm (hd.apart b hb b' hb')
    · rintro rfl
      exact Or.inl rfl
  rw [getTransactions, List.flatMap_singleton, flatMap_availCerts hs hd hb hmatch,
    stored_digest hs hd hb, List.append_nil]

/-- A certificate has been handed out or is still there. -/
lemma issue_mem_availCerts_iff : AvailCert.issue hash committee b ∈ p.1.availCerts ↔
    AvailCert.issue hash committee b ∉ p.2 := by
  have hmem : AvailCert.issue hash committee b ∈ p.2 ++ p.1.availCerts := by
    rw [hs.certs]
    exact List.mem_map_of_mem hb
  constructor
  · exact fun hpending htaken => List.disjoint_of_nodup_append (nodup_certs hs hd) htaken hpending
  · exact fun htaken => (List.mem_append.mp hmem).resolve_left htaken

end

/-- **Retrieval.** A batch is found exactly once under the digest of its
certificate until the certificate is handed out, and under its own digest from
then on. Both hold only of a batch without transactions. -/
theorem retrieval_iff (hash : List UInt8 → DigestBytes) (committee : Committee)
    (pre post : List Call) (workerId : WorkerId) (transactions : List RawTx)
    (hd : Distinct hash committee (pre ++ .submit workerId transactions :: post)) :
    let c := ((run hash committee pre).1.submitBatch hash workerId transactions).2
    let p := run hash committee (pre ++ .submit workerId transactions :: post)
    (p.1.getTransactions hash [c.batchDigest] = transactions ∧
        p.1.getTransactions hash [c.digest hash] = transactions ↔ transactions = []) ∧
      (p.1.getTransactions hash [c.batchDigest] = transactions ↔
        transactions = [] ∨ c ∈ p.2) ∧
      (p.1.getTransactions hash [c.digest hash] = transactions ↔
        transactions = [] ∨ c ∉ p.2) := by
  intro c p
  have hs : Stocked hash committee _ p := stocked_run hash committee _
  have hb : Batch.new hash workerId transactions ∈
      submitted hash (pre ++ .submit workerId transactions :: post) := by
    simp [submitted]
  have hc : c = AvailCert.issue hash committee (Batch.new hash workerId transactions) :=
    congrArg (AvailCert.issue hash · _) (stocked_run hash committee pre).committee_eq
  -- a certificate still held answers to both digests, a stored batch to its own only
  have hid : p.1.getTransactions hash [c.batchDigest] =
      (if c ∉ p.2 then transactions else []) ++ transactions := by
    rw [hc, if_congr (issue_mem_availCerts_iff hs hd hb).symm rfl rfl]
    exact getTransactions_id hs hd hb
  have hdigest : p.1.getTransactions hash [c.digest hash] =
      if c ∉ p.2 then transactions else [] := by
    rw [hc, if_congr (issue_mem_availCerts_iff hs hd hb).symm rfl rfl]
    exact getTransactions_digest hs hd hb
  rw [hid, hdigest]
  by_cases htaken : c ∈ p.2
  · simp [htaken, eq_comm]
  · simp [htaken]

/-- One batch, before and after its certificate is handed out. -/
theorem retrieval_one_batch :
    let p := run Protocol.polynomialHash Protocol.fourNodes.committee [.submit 0 [[1]]]
    let c := ((new Protocol.fourNodes.committee).submitBatch Protocol.polynomialHash 0 [[1]]).2
    c ∉ p.2 ∧ p.1.getTransactions Protocol.polynomialHash [c.digest Protocol.polynomialHash] =
      [[1]] := by
  intro p c
  have htaken : c ∉ p.2 := List.not_mem_nil
  exact ⟨htaken, (retrieval_iff Protocol.polynomialHash Protocol.fourNodes.committee [] [] 0 [[1]]
    (by decide +kernel)).2.2.mpr (Or.inr htaken)⟩

/-- A batch of one transaction comes back twice, and later not at all. -/
theorem batch_retrieved_twice_or_never :
    let c := ((new Protocol.fourNodes.committee).submitBatch Protocol.polynomialHash 0 [[1]]).2
    let pending := run Protocol.polynomialHash Protocol.fourNodes.committee [.submit 0 [[1]]]
    let taken := run Protocol.polynomialHash Protocol.fourNodes.committee [.submit 0 [[1]], .take 1]
    Distinct Protocol.polynomialHash Protocol.fourNodes.committee [.submit 0 [[1]], .take 1] ∧
      pending.1.getTransactions Protocol.polynomialHash [c.batchDigest] = [[1], [1]] ∧
      taken.1.getTransactions Protocol.polynomialHash [c.digest Protocol.polynomialHash] = [] := by
  decide +kernel

end DataPlane

/-! ### Batches of one identity -/

/-- The string of a batch determines its worker and the concatenation of its
transactions. -/
lemma Batch.data_inj {workerId workerId' : WorkerId} {transactions transactions' : List RawTx} :
    data workerId transactions = data workerId' transactions' ↔
      workerId = workerId' ∧ transactions.flatten = transactions'.flatten := by
  constructor
  · intro h
    obtain ⟨hworker, hflat⟩ := List.append_inj h (by simp)
    exact ⟨toLeBytes_injective hworker, hflat⟩
  · rintro ⟨rfl, hflat⟩
    rw [data, data, hflat]

namespace DataPlane

variable {hash : List UInt8 → DigestBytes} {committee : Committee} {calls : List Call}

/-- No submission puts other transactions in the place of a batch that is
stored. -/
def NoOverwrite (hash : List UInt8 → DigestBytes) (committee : Committee) (calls : List Call) :
    Prop :=
  ForallSplit (fun pre call => ∀ workerId transactions, call = .submit workerId transactions →
    ∀ b, (run hash committee pre).1.getBatch (Batch.new hash workerId transactions).id = some b →
      b.transactions = transactions) calls

/-- Nothing is overwritten as long as batches of one digest have the same
transactions. -/
lemma noOverwrite_iff : NoOverwrite hash committee calls ↔
    ∀ b ∈ submitted hash calls, ∀ b' ∈ submitted hash calls, b.id = b'.id →
      b.transactions = b'.transactions := by
  induction calls using List.reverseRecOn with
  | nil =>
      refine ⟨fun _ b hb => ?_, fun _ pre call post hsplit => ?_⟩
      · cases hb
      · simp at hsplit
  | append_singleton calls call ih =>
      have hs := stocked_run hash committee calls
      rw [NoOverwrite, forallSplit_append_singleton]
      change NoOverwrite hash committee calls ∧ _ ↔ _
      rw [ih]
      cases call with
      | take limit =>
          rw [submitted_take]
          exact ⟨fun h => h.1, fun h => ⟨h, fun _ _ hcall => by cases hcall⟩⟩
      | submit workerId transactions =>
          rw [submitted_submit]
          constructor
          · rintro ⟨hold, hnew⟩
            -- the batch stored under the digest stands for all earlier ones
            have hstored : ∀ b ∈ submitted hash calls,
                b.id = (Batch.new hash workerId transactions).id →
                  b.transactions = transactions := by
              intro b hb hid
              obtain ⟨b', hget⟩ := hs.exists_getBatch b hb
              obtain ⟨hb', hid'⟩ := hs.submitted_of_getBatch _ _ hget
              rw [hold b hb b' hb' hid'.symm]
              exact hnew workerId transactions rfl b' (hid ▸ hget)
            intro b hb b' hb' hid
            -- both old, old and new, new and old, both new
            rcases List.mem_append.mp hb with hb | hb <;>
              rcases List.mem_append.mp hb' with hb' | hb'
            · exact hold b hb b' hb' hid
            · rw [List.mem_singleton.mp hb'] at hid ⊢
              exact hstored b hb hid
            · rw [List.mem_singleton.mp hb] at hid ⊢
              exact (hstored b' hb' hid.symm).symm
            · rw [List.mem_singleton.mp hb, List.mem_singleton.mp hb']
          · intro h
            refine ⟨fun b hb b' hb' => h b (List.mem_append_left _ hb) b'
              (List.mem_append_left _ hb'), ?_⟩
            rintro _ _ ⟨⟩ b hget
            obtain ⟨hb, hid⟩ := hs.submitted_of_getBatch _ _ hget
            exact h b (List.mem_append_left _ hb) _ (List.mem_append_right _ (by simp)) hid

lemma id_of_mem_submitted {b : Batch} (hb : b ∈ submitted hash calls) :
    b.id = hash (Batch.data b.workerId b.transactions) := by
  obtain ⟨call, -, hcall⟩ := List.mem_filterMap.mp hb
  cases call with
  | submit workerId transactions =>
      cases hcall
      rfl
  | take limit => cases hcall

end DataPlane

/-- **The identity of a batch.** Different batches are hashed from different
strings unless they are of one worker and cut the same bytes into transactions at
different places. With a hash that tells the strings apart, submissions overwrite
nothing exactly if no two of them do that. -/
theorem batch_identity_iff (hash : List UInt8 → DigestBytes) (committee : Committee)
    (calls : List DataPlane.Call) (workerId workerId' : WorkerId)
    (transactions transactions' : List RawTx) :
    (((workerId, transactions) ≠ (workerId', transactions') →
          Batch.data workerId transactions ≠ Batch.data workerId' transactions') ↔
        workerId ≠ workerId' ∨ transactions.flatten ≠ transactions'.flatten ∨
          transactions.map List.length = transactions'.map List.length) ∧
    ((∀ b ∈ DataPlane.submitted hash calls, ∀ b' ∈ DataPlane.submitted hash calls,
        CollisionFree hash (Batch.data b.workerId b.transactions)
          (Batch.data b'.workerId b'.transactions)) →
      (DataPlane.NoOverwrite hash committee calls ↔
        ∀ b ∈ DataPlane.submitted hash calls, ∀ b' ∈ DataPlane.submitted hash calls,
          b.workerId ≠ b'.workerId ∨ b.transactions.flatten ≠ b'.transactions.flatten ∨
            b.transactions.map List.length = b'.transactions.map List.length)) := by
  refine ⟨?_, fun hfree => DataPlane.noOverwrite_iff.trans ?_⟩
  · rw [← ne_imp_flatten_ne_iff, Ne, Prod.mk.injEq, Ne, Batch.data_inj]
    tauto
  · refine forall₂_congr fun b hb => forall₂_congr fun b' hb' => ?_
    -- with no collision among the strings, equal digests mean equal strings
    have hid : b.id = b'.id ↔
        b.workerId = b'.workerId ∧ b.transactions.flatten = b'.transactions.flatten := by
      rw [DataPlane.id_of_mem_submitted hb, DataPlane.id_of_mem_submitted hb', ← Batch.data_inj]
      exact ⟨hfree b hb b' hb', congrArg hash⟩
    rw [hid, ← ne_imp_flatten_ne_iff]
    tauto

/-- Two bytes as one transaction or as two: the later batch replaces the other. -/
theorem batch_overwritten :
    Batch.data 0 [[1, 2]] = Batch.data 0 [[1], [2]] ∧
      let dp := DataPlane.new Protocol.fourNodes.committee
      let first := dp.submitBatch Protocol.polynomialHash 0 [[1, 2]]
      let second := first.1.submitBatch Protocol.polynomialHash 0 [[1], [2]]
      first.1.stored first.2.batchDigest = [[1, 2]] ∧
        second.1.stored first.2.batchDigest = [[1], [2]] := by
  decide +kernel

end StablecoinSystem.ControlPlane
