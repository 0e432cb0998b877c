import Mathlib.Data.Finset.Card

/-!
Quorums with faulty members.

* `QuorumSystem`: any two quorums share a member that is not faulty;
* `QuorumSystem.eq_of_backed`: if honest members vote for one value at most, two
  values that each have a quorum of votes are equal;
* `QuorumSystem.twoThirds`: more than two thirds of the members, less than one
  third of which are faulty.
-/

namespace StablecoinSystem

variable {α β : Type}

/-- Quorums, any two of which share an honest member. -/
structure QuorumSystem (α : Type) where
  quorum : Finset α → Prop
  honest : α → Prop
  shared : ∀ A B, quorum A → quorum B → ∃ x ∈ A, x ∈ B ∧ honest x

namespace QuorumSystem

/-- The honest members of a quorum have voted for a value. -/
def Backed (Q : QuorumSystem α) (voted : α → β → Prop) (b : β) : Prop :=
  ∃ A, Q.quorum A ∧ ∀ x ∈ A, Q.honest x → voted x b

/-- **Two values that are backed are equal** if no honest member votes for
two. -/
theorem eq_of_backed (Q : QuorumSystem α) {voted : α → β → Prop} {b b' : β}
    (honce : ∀ x, Q.honest x → voted x b → voted x b' → b = b') (hb : Q.Backed voted b)
    (hb' : Q.Backed voted b') : b = b' := by
  obtain ⟨A, hA, hvoted⟩ := hb
  obtain ⟨B, hB, hvoted'⟩ := hb'
  obtain ⟨x, hxA, hxB, hx⟩ := Q.shared A B hA hB
  exact honce x hx (hvoted x hxA hx) (hvoted' x hxB hx)

variable [DecidableEq α]

/-- More than two thirds of the members are a quorum if less than one third of
them are faulty. -/
def twoThirds (members faulty : Finset α) (hfaulty : 3 * faulty.card < members.card) :
    QuorumSystem α where
  quorum A := A ⊆ members ∧ 2 * members.card < 3 * A.card
  honest x := x ∉ faulty
  shared := by
    rintro A B ⟨hA, hcardA⟩ ⟨hB, hcardB⟩
    have hunion : (A ∪ B).card ≤ members.card := Finset.card_le_card (Finset.union_subset hA hB)
    have hsum := Finset.card_union_add_card_inter A B
    obtain ⟨x, hx, hhonest⟩ := Finset.exists_mem_notMem_of_card_lt_card
      (s := faulty) (t := A ∩ B) (by omega)
    exact ⟨x, Finset.mem_of_mem_inter_left hx, Finset.mem_of_mem_inter_right hx, hhonest⟩

end QuorumSystem

end StablecoinSystem
