import Mathlib.Data.List.MinMax
import StablecoinSystem.ControlPlane.Safety
import StablecoinSystem.Support.Grouping

/-!
The view change (`control_plane/view_change.rs`).

The manager of a view counts NEW_VIEW messages for the view after it, the first
one of each sender (`accepted`). From the quorum on it answers every message of a
new sender with the next view and the highest certificate so far; its own view
stays where it is.

* `run_new`: what a manager holds after any messages;
* `length_decisions`: how many answers it gives;
* `decisions_spec`: the answer is unique exactly if no more senders than a quorum
  ask for the view, and each answer is the highest certificate of those that have
  asked.
-/

namespace StablecoinSystem.ControlPlane

/-- `NewViewMessage`. -/
structure NewViewMessage where
  newView : View
  sender : NodeId
  highQc : Option MacroQC
  signature : Signature
  deriving DecidableEq

/-- The certificate of greatest height, the last one if there are several, as
`max_by_key` has it. -/
def highestQc (qcs : List MacroQC) : Option MacroQC :=
  qcs.reverse.argmax fun qc => qc.height.toNat

/-- `ViewChangeManager`. -/
structure ViewChangeManager where
  currentView : View
  newViewMessages : List NewViewMessage
  quorumThreshold : ℕ

namespace ViewChangeManager

/-- `ViewChangeManager::new`. -/
def new (currentView : View) (quorumThreshold : ℕ) : ViewChangeManager where
  currentView := currentView
  newViewMessages := []
  quorumThreshold := quorumThreshold

/-- `create_new_view`. -/
def createNewView (hash : List UInt8 → DigestBytes) (sender : NodeId) (newView : View)
    (highQc : Option MacroQC) : NewViewMessage where
  newView := newView
  sender := sender
  highQc := highQc
  signature := Signature.sign hash sender (toLeBytes newView)

/-- `process_new_view`: the manager afterwards and what is returned. The view
wraps, as in a build without overflow checks. -/
def processNewView (mgr : ViewChangeManager) (msg : NewViewMessage) :
    ViewChangeManager × Option (View × Option MacroQC) :=
  if msg.newView ≠ mgr.currentView + 1 then (mgr, none)
  else if mgr.newViewMessages.any fun m => m.sender == msg.sender then (mgr, none)
  else
    let mgr := { mgr with newViewMessages := mgr.newViewMessages ++ [msg] }
    if mgr.quorumThreshold ≤ mgr.newViewMessages.length then
      (mgr, some (mgr.currentView + 1, highestQc (mgr.newViewMessages.filterMap (·.highQc))))
    else (mgr, none)

/-- The manager after a sequence of messages. -/
def run (mgr : ViewChangeManager) (msgs : List NewViewMessage) : ViewChangeManager :=
  msgs.foldl (fun mgr msg => (mgr.processNewView msg).1) mgr

/-- What a sequence of messages returns, one after another. -/
def decisions (mgr : ViewChangeManager) : List NewViewMessage → List (View × Option MacroQC)
  | [] => []
  | msg :: msgs => (mgr.processNewView msg).2.toList ++ (mgr.processNewView msg).1.decisions msgs

/-- The messages for the view after `currentView`. -/
def requests (currentView : View) (msgs : List NewViewMessage) : List NewViewMessage :=
  msgs.filter fun m => m.newView = currentView + 1

/-- The first message of each sender for the view after `currentView`. -/
def accepted (currentView : View) (msgs : List NewViewMessage) : List NewViewMessage :=
  retainFirst NewViewMessage.sender [] (requests currentView msgs)

/-- The nodes that ask for the view after `currentView`. -/
def senders (currentView : View) (msgs : List NewViewMessage) : Finset NodeId :=
  ((requests currentView msgs).map NewViewMessage.sender).toFinset

variable {currentView : View} {quorumThreshold : ℕ} {msgs : List NewViewMessage}
  {msg : NewViewMessage}

lemma run_append_singleton (mgr : ViewChangeManager) (msgs : List NewViewMessage)
    (msg : NewViewMessage) :
    mgr.run (msgs ++ [msg]) = ((mgr.run msgs).processNewView msg).1 :=
  List.foldl_append

lemma decisions_append_singleton (mgr : ViewChangeManager) (msgs : List NewViewMessage)
    (msg : NewViewMessage) :
    mgr.decisions (msgs ++ [msg]) =
      mgr.decisions msgs ++ ((mgr.run msgs).processNewView msg).2.toList := by
  induction msgs generalizing mgr with
  | nil => simp [decisions, run]
  | cons first msgs ih =>
      rw [List.cons_append, decisions, decisions, ih, List.append_assoc]
      rfl

/-! ### Senders -/

/-- Each sender is accepted once. -/
lemma length_accepted (currentView : View) (msgs : List NewViewMessage) :
    (accepted currentView msgs).length = (senders currentView msgs).card := by
  have hnodup : ((accepted currentView msgs).map NewViewMessage.sender).Nodup :=
    List.pairwise_map.mpr (retainFirst_keys_ne NewViewMessage.sender [] _)
  have hsenders : ((accepted currentView msgs).map NewViewMessage.sender).toFinset =
      senders currentView msgs := by
    ext node
    rw [senders, List.mem_toFinset, List.mem_toFinset]
    exact mem_map_retainFirst_iff NewViewMessage.sender
  rw [← hsenders, List.toFinset_card_of_nodup hnodup, List.length_map]

lemma accepted_of_other (hview : msg.newView ≠ currentView + 1) :
    accepted currentView (msgs ++ [msg]) = accepted currentView msgs := by
  simp [accepted, requests, hview]

lemma accepted_of_view (hview : msg.newView = currentView + 1) :
    accepted currentView (msgs ++ [msg]) = accepted currentView msgs ++
      if msg.sender ∈ (accepted currentView msgs).map NewViewMessage.sender then []
      else [msg] := by
  simp only [accepted, requests, List.filter_append, List.filter_cons, List.filter_nil, hview,
    decide_true, if_true, retainFirst_concat, mem_map_retainFirst_iff, List.not_mem_nil, false_or]

/-! ### What a manager holds and returns -/

/-- A message changes what is accepted and is answered if it is, once there is a
quorum. -/
lemma processNewView_eq (currentView : View) (quorumThreshold : ℕ) (msgs : List NewViewMessage)
    (msg : NewViewMessage) :
    processNewView ⟨currentView, accepted currentView msgs, quorumThreshold⟩ msg =
      (⟨currentView, accepted currentView (msgs ++ [msg]), quorumThreshold⟩,
        if accepted currentView (msgs ++ [msg]) ≠ accepted currentView msgs ∧
            quorumThreshold ≤ (accepted currentView (msgs ++ [msg])).length then
          some (currentView + 1,
            highestQc ((accepted currentView (msgs ++ [msg])).filterMap (·.highQc)))
        else none) := by
  rw [processNewView]
  by_cases hview : msg.newView = currentView + 1
  · rw [if_neg (not_not.mpr hview), accepted_of_view hview]
    -- a sender is known exactly if it is among those of the accepted messages
    have hany : ((accepted currentView msgs).any fun m => m.sender == msg.sender) = true ↔
        msg.sender ∈ (accepted currentView msgs).map NewViewMessage.sender := by
      simp [List.any_eq_true, List.mem_map]
    by_cases hold : msg.sender ∈ (accepted currentView msgs).map NewViewMessage.sender
    · rw [if_pos (hany.mpr hold), if_pos hold]
      simp
    · rw [if_neg (fun h => hold (hany.mp h)), if_neg hold]
      by_cases hquorum : quorumThreshold ≤ (accepted currentView msgs ++ [msg]).length
      · simp only [hquorum, if_true, and_true]
        rw [if_pos (by simp)]
      · simp only [hquorum, if_false, and_false]
  · rw [if_pos hview, accepted_of_other hview]
    simp

/-- **What a manager holds**: the first message of each sender. -/
lemma run_new (currentView : View) (quorumThreshold : ℕ) (msgs : List NewViewMessage) :
    (new currentView quorumThreshold).run msgs =
      ⟨currentView, accepted currentView msgs, quorumThreshold⟩ := by
  induction msgs using List.reverseRecOn with
  | nil => rfl
  | append_singleton msgs msg ih => rw [run_append_singleton, ih, processNewView_eq]

/-- A message adds one to what is accepted or nothing. -/
lemma length_accepted_append_singleton (currentView : View) (msgs : List NewViewMessage)
    (msg : NewViewMessage) :
    accepted currentView (msgs ++ [msg]) = accepted currentView msgs ∨
      (accepted currentView (msgs ++ [msg])).length = (accepted currentView msgs).length + 1 := by
  by_cases hview : msg.newView = currentView + 1
  · rw [accepted_of_view hview]
    split
    · exact Or.inl (List.append_nil _)
    · exact Or.inr List.length_append
  · exact Or.inl (accepted_of_other hview)

/-- **How many answers a manager gives**: one for the sender that makes the quorum
and one for each after it. -/
lemma length_decisions (currentView : View) (quorumThreshold : ℕ) (msgs : List NewViewMessage) :
    ((new currentView quorumThreshold).decisions msgs).length =
      (senders currentView msgs).card + 1 - max quorumThreshold 1 := by
  rw [← length_accepted]
  induction msgs using List.reverseRecOn with
  | nil =>
      have hmax := Nat.le_max_right quorumThreshold 1
      change 0 = 0 + 1 - _
      omega
  | append_singleton msgs msg ih =>
      rw [decisions_append_singleton, List.length_append, ih, run_new, processNewView_eq]
      rcases length_accepted_append_singleton currentView msgs msg with hsame | hnew
      · simp [hsame]
      · have hne : accepted currentView (msgs ++ [msg]) ≠ accepted currentView msgs := by
          intro heq
          rw [heq] at hnew
          omega
        by_cases hquorum : quorumThreshold ≤ (accepted currentView (msgs ++ [msg])).length
        · simp only [hne, hquorum, ne_eq, not_false_eq_true, and_self, if_true,
            Option.toList_some, List.length_singleton]
          omega
        · simp only [hquorum, and_false, if_false, Option.toList_none, List.length_nil]
          omega

/-! ### The highest certificate -/

lemma mem_of_highestQc {qcs : List MacroQC} {best : MacroQC} (h : best ∈ highestQc qcs) :
    best ∈ qcs :=
  List.mem_reverse.mp (List.argmax_mem h)

/-- No certificate is higher than the highest. -/
lemma exists_highestQc {qcs : List MacroQC} {qc : MacroQC} (hqc : qc ∈ qcs) :
    ∃ best ∈ highestQc qcs, qc.height ≤ best.height := by
  cases hbest : highestQc qcs with
  | none =>
      rw [highestQc, List.argmax_eq_none, List.reverse_eq_nil_iff] at hbest
      rw [hbest] at hqc
      cases hqc
  | some best => exact ⟨best, rfl, List.le_of_mem_argmax (List.mem_reverse.mpr hqc) hbest⟩

/-- **The decisions of a manager.** It decides at most once exactly if no more
nodes than a quorum ask for the next view. Each time it decides, a quorum has
asked, and the certificate it returns is the highest one of the messages
accepted. It is the highest one of all messages for the view exactly if no node
has followed its first message by one with a certificate above those of all
first messages. -/
theorem decisions_spec (currentView : View) (quorumThreshold : ℕ) (msgs : List NewViewMessage) :
    (((new currentView quorumThreshold).decisions msgs).length ≤ 1 ↔
      (senders currentView msgs).card ≤ max quorumThreshold 1) ∧
    ∀ pre msg post view best, msgs = pre ++ msg :: post →
      (((new currentView quorumThreshold).run pre).processNewView msg).2 = some (view, best) →
      view = currentView + 1 ∧
        quorumThreshold ≤ (senders currentView (pre ++ [msg])).card ∧
        (∀ m ∈ accepted currentView (pre ++ [msg]), ∀ qc ∈ m.highQc,
          ∃ b ∈ best, qc.height ≤ b.height) ∧
        (∀ b ∈ best, ∃ m ∈ accepted currentView (pre ++ [msg]), b ∈ m.highQc) ∧
        ((∀ m ∈ requests currentView (pre ++ [msg]), ∀ qc ∈ m.highQc,
            ∃ b ∈ best, qc.height ≤ b.height) ↔
          ∀ m ∈ requests currentView (pre ++ [msg]), ∀ qc ∈ m.highQc,
            ∃ first ∈ accepted currentView (pre ++ [msg]), ∃ qc' ∈ first.highQc,
              qc.height ≤ qc'.height) := by
  constructor
  · rw [length_decisions]
    omega
  · intro pre msg post view best _ hreturned
    rw [run_new, processNewView_eq] at hreturned
    dsimp only at hreturned
    split at hreturned
    · rename_i hquorum
      cases hreturned
      -- the certificate returned is a maximum over the first messages, and one of theirs
      have hhighest : ∀ m ∈ accepted currentView (pre ++ [msg]), ∀ qc ∈ m.highQc,
          ∃ b ∈ highestQc ((accepted currentView (pre ++ [msg])).filterMap (·.highQc)),
            qc.height ≤ b.height :=
        fun m hm qc hqc => exists_highestQc (List.mem_filterMap.mpr ⟨m, hm, hqc⟩)
      have hmem : ∀ b ∈ highestQc ((accepted currentView (pre ++ [msg])).filterMap (·.highQc)),
          ∃ m ∈ accepted currentView (pre ++ [msg]), b ∈ m.highQc :=
        fun b hb => List.mem_filterMap.mp (mem_of_highestQc hb)
      refine ⟨rfl, length_accepted currentView _ ▸ hquorum.2, hhighest, hmem, ?_, ?_⟩
      · intro hall m hm qc hqc
        obtain ⟨b, hb, hle⟩ := hall m hm qc hqc
        obtain ⟨first, hfirst, hb'⟩ := hmem b hb
        exact ⟨first, hfirst, b, hb', hle⟩
      · intro hfirsts m hm qc hqc
        obtain ⟨first, hfirst, qc', hqc', hle⟩ := hfirsts m hm qc hqc
        obtain ⟨b, hb, hle'⟩ := hhighest first hfirst qc' hqc'
        exact ⟨b, hb, UInt64.le_trans hle hle'⟩
    · cases hreturned

/-- Four nodes ask for view 1. The third makes a quorum and no certificate is
known; the fourth has one, and the parent of the view changes. If the first node
sends the certificate in a second message instead, it is not looked at. -/
theorem decided_twice :
    let ask := fun sender highQc => createNewView Protocol.polynomialHash sender 1 highQc
    (new 0 3).decisions [ask 0 none, ask 1 none, ask 2 none, ask 3 (some (Protocol.branch 0 0))] =
      [(1, none), (1, some (Protocol.branch 0 0))] ∧
    (new 0 3).decisions [ask 0 none, ask 0 (some (Protocol.branch 0 0)), ask 1 none, ask 2 none] =
      [(1, none)] := by
  decide +kernel

end ViewChangeManager

end StablecoinSystem.ControlPlane
