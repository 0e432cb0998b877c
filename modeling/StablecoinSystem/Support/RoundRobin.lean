import Mathlib.Data.List.Flatten
import Mathlib.Data.List.Perm.Basic

/-!
Draining a list of groups round robin.

A pass takes the head of every group that still has one (`heads`) and leaves the
tails (`tails`); passes follow each other until one takes nothing (`roundRobin`).

* `roundRobin_perm`: nothing is lost;
* `filter_roundRobin`: the elements of one group keep their order;
* `spread_roundRobin`: if the groups get shorter along the list, two elements of
  one group are adjacent only once every other group is exhausted. The first
  group is then the last one to run dry, so that the last element of a pass and
  the first of the next come from one group only when it is alone.
-/

namespace StablecoinSystem

variable {α κ : Type*}

/-! ### One pass -/

/-- What a pass takes: the head of each group that has one. -/
def heads (groups : List (List α)) : List α := groups.filterMap List.head?

/-- What a pass leaves. -/
def tails (groups : List (List α)) : List (List α) := groups.map List.tail

@[simp] lemma heads_nil_cons (groups : List (List α)) : heads ([] :: groups) = heads groups := rfl

@[simp] lemma heads_cons_cons (a : α) (g : List α) (groups : List (List α)) :
    heads ((a :: g) :: groups) = a :: heads groups := rfl

@[simp] lemma tails_cons (g : List α) (groups : List (List α)) :
    tails (g :: groups) = g.tail :: tails groups := rfl

lemma heads_append_tails_perm (groups : List (List α)) :
    (heads groups ++ (tails groups).flatten).Perm groups.flatten := by
  induction groups with
  | nil => exact List.Perm.refl _
  | cons g groups ih =>
      cases g with
      | nil => simpa using ih
      | cons a g =>
          simp only [heads_cons_cons, tails_cons, List.tail_cons, List.flatten_cons,
            List.cons_append, List.perm_cons]
          rw [← List.append_assoc]
          exact (List.perm_append_comm.append_right _).trans
            (List.append_assoc _ _ _ ▸ ih.append_left g)

lemma mem_flatten_of_mem_heads {groups : List (List α)} {a : α} (ha : a ∈ heads groups) :
    a ∈ groups.flatten :=
  (heads_append_tails_perm groups).mem_iff.mp (List.mem_append_left _ ha)

lemma flatten_eq_nil_of_heads {groups : List (List α)} (h : heads groups = []) :
    groups.flatten = [] := by
  induction groups with
  | nil => rfl
  | cons g groups ih =>
      cases g with
      | nil => exact ih h
      | cons a g => cases h

/-! ### All passes -/

/-- The groups drained round robin: pass after pass, until one takes nothing. -/
def roundRobin (groups : List (List α)) : List α :=
  if heads groups = [] then [] else heads groups ++ roundRobin (tails groups)
termination_by groups.flatten.length
decreasing_by
  rename_i hsome
  have hlen := (heads_append_tails_perm groups).length_eq
  have hpos := List.length_pos_iff.mpr hsome
  rw [List.length_append] at hlen
  omega

/-- **Nothing is lost or invented.** -/
theorem roundRobin_perm (groups : List (List α)) : (roundRobin groups).Perm groups.flatten := by
  fun_induction roundRobin groups with
  | case1 groups h => rw [flatten_eq_nil_of_heads h]
  | case2 groups h ih => exact (ih.append_left _).trans (heads_append_tails_perm groups)

/-! ### The elements of one group -/

/-- At most one of the groups has elements that satisfy `p`. -/
def OneGroup (p : α → Bool) (groups : List (List α)) : Prop :=
  groups.Pairwise fun g g' => ∀ a ∈ g, ∀ b ∈ g', ¬(p a = true ∧ p b = true)

namespace OneGroup

variable {p : α → Bool} {groups groups' : List (List α)}

lemma tails (h : OneGroup p groups) : OneGroup p (tails groups) :=
  List.Pairwise.map _ (fun _ _ hne a ha b hb => hne a (List.mem_of_mem_tail ha) b
    (List.mem_of_mem_tail hb)) h

/-- Of the first group and the rest, one contributes nothing. -/
lemma filter_cons_eq_nil {g : List α} (h : OneGroup p (g :: groups)) :
    g.filter p = [] ∨ groups.flatten.filter p = [] := by
  by_cases hg : ∃ a ∈ g, p a = true
  · obtain ⟨a, ha, hpa⟩ := hg
    refine Or.inr (List.filter_eq_nil_iff.mpr fun b hb hpb => ?_)
    obtain ⟨g', hg', hb⟩ := List.mem_flatten.mp hb
    exact List.rel_of_pairwise_cons h hg' a ha b hb ⟨hpa, hpb⟩
  · exact Or.inl (List.filter_eq_nil_iff.mpr fun a ha hpa => hg ⟨a, ha, hpa⟩)

/-- A pass keeps the order of the elements that satisfy `p`. -/
lemma filter_heads_append_tails (h : OneGroup p groups) :
    (heads groups ++ (StablecoinSystem.tails groups).flatten).filter p =
      groups.flatten.filter p := by
  induction groups with
  | nil => rfl
  | cons g groups ih =>
      have hrest := ih (List.Pairwise.of_cons h)
      rw [List.filter_append] at hrest
      cases g with
      | nil => simpa using hrest
      | cons a g =>
          rcases h.filter_cons_eq_nil with hnil | hnil
          · -- the first group contributes nothing
            obtain ⟨ha, hg⟩ : p a = false ∧ g.filter p = [] := by
              simpa [List.filter_eq_nil_iff] using hnil
            simpa [ha, hg] using hrest
          · -- the other groups contribute nothing
            rw [hnil, List.append_eq_nil_iff] at hrest
            simp [List.filter_append, List.filter_cons, hrest.1, hrest.2, hnil]

/-- The order of the groups does not matter to the elements that satisfy `p`. -/
lemma filter_flatten_eq_of_perm (hperm : groups.Perm groups') (h : OneGroup p groups) :
    groups.flatten.filter p = groups'.flatten.filter p := by
  induction hperm with
  | nil => rfl
  | cons g _ ih =>
      rw [List.flatten_cons, List.flatten_cons, List.filter_append, List.filter_append,
        ih (List.Pairwise.of_cons h)]
  | swap g g' rest =>
      have hpair : g'.filter p = [] ∨ g.filter p = [] := by
        have h₂ : OneGroup p [g', g] := List.Pairwise.sublist (by simp) h
        simpa using h₂.filter_cons_eq_nil
      rcases hpair with hnil | hnil <;> simp [hnil]
  | trans h₁ _ ih₁ ih₂ =>
      exact (ih₁ h).trans (ih₂ (List.Pairwise.perm h h₁ fun hne a ha b hb hab =>
        hne b hb a ha hab.symm))

end OneGroup

/-- **The elements of one group keep their order.** -/
theorem filter_roundRobin {p : α → Bool} {groups : List (List α)} (h : OneGroup p groups) :
    (roundRobin groups).filter p = groups.flatten.filter p := by
  fun_induction roundRobin groups with
  | case1 groups hnil => rw [flatten_eq_nil_of_heads hnil]
  | case2 groups hsome ih =>
      rw [← h.filter_heads_append_tails, List.filter_append, List.filter_append, ih h.tails]

/-! ### Adjacent elements -/

/-- Groups of different keys, each of one key, that get shorter along the list. -/
structure Descending (key : α → κ) (groups : List (List α)) : Prop where
  shorter : groups.Pairwise fun g g' => g'.length ≤ g.length
  uniform : ∀ g ∈ groups, ∀ a ∈ g, ∀ b ∈ g, key a = key b
  apart : groups.Pairwise fun g g' => ∀ a ∈ g, ∀ b ∈ g', key a ≠ key b

/-- Once two adjacent elements have one key, everything after them has it. -/
def Spread (key : α → κ) (l : List α) : Prop :=
  ∀ a b rest, a :: b :: rest <:+ l → key a = key b → ∀ c ∈ rest, key c = key a

namespace Descending

variable {key : α → κ} {groups : List (List α)}

lemma tails (h : Descending key groups) : Descending key (tails groups) where
  shorter := h.shorter.map _ fun g g' hle => by
    rw [List.length_tail, List.length_tail]
    omega
  uniform := List.forall_mem_map.mpr fun g hg a ha b hb =>
    h.uniform g hg a (List.mem_of_mem_tail ha) b (List.mem_of_mem_tail hb)
  apart := h.apart.map _ fun _ _ hne a ha b hb =>
    hne a (List.mem_of_mem_tail ha) b (List.mem_of_mem_tail hb)

/-- A pass takes elements of different keys. -/
lemma heads_ne (h : Descending key groups) :
    (heads groups).Pairwise fun a b => key a ≠ key b := by
  refine List.Pairwise.filterMap List.head? (fun g g' hne a ha b hb => ?_) h.apart
  exact hne a (List.mem_of_head? ha) b (List.mem_of_head? hb)

/-- The first group is empty only if all are. -/
lemma flatten_eq_nil (h : Descending key ([] :: groups)) : groups.flatten = [] := by
  rw [List.flatten_eq_nil_iff]
  intro g hg
  have hle := List.rel_of_pairwise_cons h.shorter hg
  exact List.length_eq_zero_iff.mp (Nat.le_zero.mp hle)

/-- The first element drained is the head of the first group. -/
lemma head_roundRobin {g rest : List α} {b : α} (h : Descending key (g :: groups))
    (hfirst : roundRobin (g :: groups) = b :: rest) : b ∈ g := by
  cases g with
  | nil =>
      have hperm := roundRobin_perm ([] :: groups)
      rw [hfirst, List.flatten_cons, List.nil_append, h.flatten_eq_nil] at hperm
      exact absurd hperm (by simp)
  | cons a g =>
      rw [roundRobin, if_neg (by simp), heads_cons_cons, List.cons_append] at hfirst
      exact List.mem_cons.mpr (.inl (List.cons.inj hfirst).1.symm)

/-- The last element of a pass and the first of the next have one key only if
the first group is alone. -/
lemma spread_passes {pre rest : List α} {a b : α} (h : Descending key groups)
    (hpass : heads groups = pre ++ [a])
    (hnext : roundRobin (StablecoinSystem.tails groups) = b :: rest) (hab : key a = key b) :
    ∀ c ∈ rest, key c = key a := by
  cases groups with
  | nil => simp [heads] at hpass
  | cons g groups =>
      have hb : b ∈ g.tail := h.tails.head_roundRobin hnext
      have hbg := List.mem_of_mem_tail hb
      cases g with
      | nil => cases hbg
      | cons x g =>
          cases pre with
          | nil =>
              -- the first group is alone: what follows comes from its tail
              obtain ⟨rfl, hempty⟩ := List.cons.inj hpass
              intro c hc
              have hmem : c ∈ (StablecoinSystem.tails ((x :: g) :: groups)).flatten := by
                rw [← (roundRobin_perm _).mem_iff, hnext]
                exact List.mem_cons_of_mem _ hc
              have hc : c ∈ g := by
                have hrest : (StablecoinSystem.tails groups).flatten = [] := by
                  have hperm := heads_append_tails_perm groups
                  rw [flatten_eq_nil_of_heads hempty] at hperm
                  exact (List.append_eq_nil_iff.mp hperm.eq_nil).2
                simpa [hrest] using hmem
              exact h.uniform _ List.mem_cons_self c (List.mem_cons_of_mem _ hc) x
                List.mem_cons_self
          | cons y pre =>
              -- the pass ends in another group, of another key
              have hothers : heads groups = pre ++ [a] := (List.cons.inj hpass).2
              have ha : a ∈ groups.flatten := by
                refine mem_flatten_of_mem_heads ?_
                rw [hothers]
                exact List.mem_append_right _ List.mem_cons_self
              obtain ⟨g', hg', ha⟩ := List.mem_flatten.mp ha
              exact absurd hab.symm (List.rel_of_pairwise_cons h.apart hg' b hbg a ha)

end Descending

/-- **Adjacent elements of one group stand at the end**, where all other groups
are exhausted. -/
theorem spread_roundRobin {key : α → κ} {groups : List (List α)} (h : Descending key groups) :
    Spread key (roundRobin groups) := by
  fun_induction roundRobin groups with
  | case1 groups hnil =>
      intro a b rest hsuffix
      simp at hsuffix
  | case2 groups hsome ih =>
      rintro a b rest ⟨pre, hpre⟩ hab
      rcases List.append_eq_append_iff.mp hpre with ⟨pass, hpass, hrest⟩ | ⟨mid, -, hrest⟩
      · rcases pass with - | ⟨x, - | ⟨y, pass⟩⟩
        · -- both in later passes
          exact ih h.tails a b rest ⟨[], hrest⟩ hab
        · obtain ⟨rfl, hnext⟩ := List.cons.inj hrest
          exact h.spread_passes hpass hnext.symm hab
        · -- both in this pass
          have hne := h.heads_ne
          rw [hpass, List.pairwise_append] at hne
          obtain ⟨rfl, rfl⟩ : a = x ∧ b = y := by
            simp only [List.cons_append, List.cons.injEq] at hrest
            exact ⟨hrest.1, hrest.2.1⟩
          exact absurd hab (List.rel_of_pairwise_cons hne.2.1 List.mem_cons_self)
      · exact ih h.tails a b rest ⟨mid, hrest.symm⟩ hab

end StablecoinSystem
