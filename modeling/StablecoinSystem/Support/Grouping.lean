import Mathlib.Data.List.Induction
import Mathlib.Data.List.Sort
import Mathlib.Data.List.Perm.Basic
import Mathlib.Data.List.Nodup
import Mathlib.Data.Prod.Basic

/-!
Keeping the first element of each key, and grouping into an ordered map.

* **Keep first.** `retainFirst` drops every element whose key was seen before;
  `retainFirst_perm_iff` says that two lists keep the same elements exactly if
  the first element of every key is the same in both.
* **Groups.** `groupsOf` is an ordered map from keys to the vectors of elements
  with that key, as an association list with increasing keys (`IsGrouping`).
  `concatSorted` sorts each group and concatenates them: a permutation of the
  input (`concatSorted_perm`), ordered by key and inside a key by the
  comparison (`concatSorted_pairwise`).
-/

namespace StablecoinSystem

variable {α κ : Type*}

/-! ### Keeping the first element of each key -/

section KeepFirst

variable [DecidableEq κ] (key : α → κ)

/-- The elements whose key is neither in `seen` nor that of an earlier element. -/
def retainFirst (seen : List κ) : List α → List α
  | [] => []
  | a :: l =>
      if key a ∈ seen then retainFirst seen l else a :: retainFirst (key a :: seen) l

/-- The same without a loop: the elements whose key no element before them has. -/
def withoutRepeats (l : List α) : List α :=
  (l.zipIdx.filter fun (a, i) => key a ∉ (l.take i).map key).map Prod.fst

/-- What is kept has a new key. -/
lemma key_notMem_of_mem_retainFirst {seen : List κ} {l : List α} {a : α}
    (ha : a ∈ retainFirst key seen l) : key a ∉ seen := by
  induction l generalizing seen with
  | nil => cases ha
  | cons b l ih =>
      rw [retainFirst] at ha
      split at ha
      · exact ih ha
      · rename_i hb
        rcases List.mem_cons.mp ha with rfl | ha
        · exact hb
        · exact fun hmem => ih ha (List.mem_cons_of_mem _ hmem)

/-- No key is kept twice. -/
lemma retainFirst_keys_ne (seen : List κ) (l : List α) :
    (retainFirst key seen l).Pairwise (fun a b => key a ≠ key b) := by
  induction l generalizing seen with
  | nil => exact List.Pairwise.nil
  | cons a l ih =>
      rw [retainFirst]
      split
      · exact ih seen
      · refine List.pairwise_cons.mpr ⟨fun b hb heq => ?_, ih _⟩
        have hnew := key_notMem_of_mem_retainFirst key hb
        rw [← heq] at hnew
        exact hnew List.mem_cons_self

/-- A list without repeated keys is kept as it is. -/
lemma retainFirst_eq_self_of_disjoint {seen : List κ} {l : List α}
    (hseen : ∀ a ∈ l, key a ∉ seen) (hl : l.Pairwise (fun a b => key a ≠ key b)) :
    retainFirst key seen l = l := by
  induction l generalizing seen with
  | nil => rfl
  | cons a l ih =>
      obtain ⟨ha, hl⟩ := List.pairwise_cons.mp hl
      obtain ⟨hnew, hrest⟩ := List.forall_mem_cons.mp hseen
      rw [retainFirst, if_neg hnew, ih ?_ hl]
      intro b hb hmem
      rcases List.mem_cons.mp hmem with heq | hmem
      · exact ha b hb heq.symm
      · exact hrest b hb hmem

lemma retainFirst_eq_self {l : List α} (hl : l.Pairwise (fun a b => key a ≠ key b)) :
    retainFirst key [] l = l :=
  retainFirst_eq_self_of_disjoint key (fun _ _ => List.not_mem_nil) hl

/-- The element kept for a new key is the first one of the list with that key. -/
lemma find?_retainFirst {k : κ} {seen : List κ} (hk : k ∉ seen) (l : List α) :
    (retainFirst key seen l).find? (fun a => key a = k) = l.find? (fun a => key a = k) := by
  induction l generalizing seen with
  | nil => rfl
  | cons a l ih =>
      rw [retainFirst]
      by_cases hak : key a = k
      · have hnew : key a ∉ seen := by rwa [hak]
        rw [if_neg hnew, List.find?_cons_of_pos (by simpa using hak),
          List.find?_cons_of_pos (by simpa using hak)]
      · rw [List.find?_cons_of_neg (by simpa using hak)]
        split
        · exact ih hk
        · rw [List.find?_cons_of_neg (by simpa using hak)]
          have hne : k ≠ key a := fun h => hak h.symm
          exact ih (fun h => (List.mem_cons.mp h).elim hne hk)

/-- In a list without repeated keys, an element is the first one of its key. -/
lemma find?_eq_some_of_mem {l : List α} (hl : l.Pairwise (fun a b => key a ≠ key b)) {a : α}
    (ha : a ∈ l) : l.find? (fun b => key b = key a) = some a := by
  induction l with
  | nil => cases ha
  | cons b l ih =>
      obtain ⟨hb, hl⟩ := List.pairwise_cons.mp hl
      rcases List.mem_cons.mp ha with rfl | ha
      · exact List.find?_cons_of_pos (by simp)
      · rw [List.find?_cons_of_neg (by simpa using hb a ha)]
        exact ih hl ha

lemma mem_retainFirst_iff {l : List α} {a : α} :
    a ∈ retainFirst key [] l ↔ l.find? (fun b => key b = key a) = some a := by
  rw [← find?_retainFirst key (List.not_mem_nil (a := key a)) l]
  constructor
  · exact find?_eq_some_of_mem key (retainFirst_keys_ne key [] l)
  · exact List.mem_of_find?_eq_some

/-- Every key is kept. -/
lemma mem_map_retainFirst_iff {l : List α} {k : κ} :
    k ∈ (retainFirst key [] l).map key ↔ k ∈ l.map key := by
  have hfind (l : List α) : k ∈ l.map key ↔ (l.find? fun a => key a = k).isSome := by
    simp [List.find?_isSome, List.mem_map]
  rw [hfind, hfind, find?_retainFirst key List.not_mem_nil]

omit [DecidableEq κ] in
lemma nodup_of_keys_ne {l : List α} (hl : l.Pairwise (fun a b => key a ≠ key b)) : l.Nodup :=
  hl.imp fun hne heq => hne (congrArg key heq)

/-- **Two lists keep the same elements exactly if the first element of every
key is the same in both.** -/
theorem retainFirst_perm_iff {l₁ l₂ : List α} :
    (retainFirst key [] l₁).Perm (retainFirst key [] l₂) ↔
      ∀ k, l₁.find? (fun a => key a = k) = l₂.find? (fun a => key a = k) := by
  have hnodup (l : List α) := nodup_of_keys_ne key (retainFirst_keys_ne key [] l)
  rw [List.perm_ext_iff_of_nodup (hnodup l₁) (hnodup l₂)]
  simp only [mem_retainFirst_iff]
  constructor
  · intro h k
    -- an element found for `k` in one list has key `k`, so it is the one found in the other
    have hfound {l l' : List α} (h : ∀ a, l.find? (fun b => key b = key a) = some a →
        l'.find? (fun b => key b = key a) = some a) {a : α}
        (ha : l.find? (fun b => key b = k) = some a) :
        l'.find? (fun b => key b = k) = some a := by
      have hak : key a = k := by simpa using List.find?_some ha
      subst hak
      exact h a ha
    refine Option.ext fun a => ⟨?_, ?_⟩
    · exact hfound fun a => (h a).mp
    · exact hfound fun a => (h a).mpr
  · intro h a
    rw [h]

lemma retainFirst_concat (seen : List κ) (l : List α) (a : α) :
    retainFirst key seen (l ++ [a]) =
      retainFirst key seen l ++ if key a ∈ seen ∨ key a ∈ l.map key then [] else [a] := by
  induction l generalizing seen with
  | nil => simp [retainFirst]
  | cons b l ih =>
      rw [List.cons_append, retainFirst, retainFirst]
      split
      · rename_i hb
        have hiff : key a ∈ seen ∨ key a ∈ (b :: l).map key ↔ key a ∈ seen ∨ key a ∈ l.map key := by
          rw [List.map_cons, List.mem_cons]
          refine ⟨?_, fun h => h.imp_right Or.inr⟩
          rintro (h | h | h)
          · exact Or.inl h
          · exact Or.inl (h ▸ hb)
          · exact Or.inr h
        rw [ih, if_congr hiff rfl rfl]
      · have hiff : key a ∈ key b :: seen ∨ key a ∈ l.map key ↔
            key a ∈ seen ∨ key a ∈ (b :: l).map key := by
          rw [List.map_cons, List.mem_cons, List.mem_cons]
          tauto
        rw [ih, if_congr hiff rfl rfl, List.cons_append]

lemma withoutRepeats_concat (l : List α) (a : α) :
    withoutRepeats key (l ++ [a]) =
      withoutRepeats key l ++ if key a ∈ l.map key then [] else [a] := by
  have hearlier : (l.zipIdx.filter fun (b, i) => key b ∉ ((l ++ [a]).take i).map key) =
      l.zipIdx.filter fun (b, i) => key b ∉ (l.take i).map key := by
    refine List.filter_congr fun ⟨b, i⟩ hmem => ?_
    have hi : i ≤ l.length := Nat.le_of_lt (by simpa using (List.mem_zipIdx hmem).2.1)
    simp only [List.take_append_of_le_length hi]
  rw [withoutRepeats, List.zipIdx_append, List.filter_append, List.map_append, hearlier]
  refine congrArg (withoutRepeats key l ++ ·) ?_
  by_cases ha : key a ∈ l.map key
  · simp [ha]
  · simp [ha]

/-- **Keeping the first element of each key removes every element whose key
occurred earlier, and nothing else.** -/
theorem retainFirst_eq_withoutRepeats (l : List α) :
    retainFirst key [] l = withoutRepeats key l := by
  induction l using List.reverseRecOn with
  | nil => rfl
  | append_singleton l a ih =>
      rw [retainFirst_concat, withoutRepeats_concat, ih]
      simp

/-- In a list without repeated keys, the key of an element occurs once. -/
lemma countP_key_eq_one {l : List α} (hl : l.Pairwise (fun a b => key a ≠ key b)) {a : α}
    (ha : a ∈ l) : l.countP (fun b => key b = key a) = 1 := by
  induction l with
  | nil => cases ha
  | cons b l ih =>
      obtain ⟨hb, hl⟩ := List.pairwise_cons.mp hl
      rcases List.mem_cons.mp ha with rfl | ha
      · have hnone : l.countP (fun b => key b = key a) = 0 :=
          List.countP_eq_zero.mpr fun b hmem heq => hb b hmem (of_decide_eq_true heq).symm
        rw [List.countP_cons_of_pos (by simp), hnone]
      · rw [List.countP_cons_of_neg (by simpa using hb a ha), ih hl ha]

/-- Every key of the list is kept once. -/
lemma countP_retainFirst {l : List α} {a : α} (ha : a ∈ l) :
    (retainFirst key [] l).countP (fun b => key b = key a) = 1 := by
  have hfind : (l.find? fun b => key b = key a).isSome := List.find?_isSome.mpr ⟨a, ha, by simp⟩
  obtain ⟨b, hb⟩ := Option.isSome_iff_exists.mp hfind
  have hkey : key b = key a := by simpa using List.find?_some hb
  rw [← hkey] at hb ⊢
  exact countP_key_eq_one key (retainFirst_keys_ne key [] l) ((mem_retainFirst_iff key).mpr hb)

end KeepFirst

/-! ### Groups -/

section Groups

variable [LinearOrder κ] (key : α → κ)

/-- Push `a` onto the vector of its key, which is created if it is not there. -/
def pushGroup (a : α) : List (κ × List α) → List (κ × List α)
  | [] => [(key a, [a])]
  | (k, group) :: rest =>
      if key a < k then (key a, [a]) :: (k, group) :: rest
      else if key a = k then (k, group ++ [a]) :: rest
      else (k, group) :: pushGroup a rest

/-- The elements of `l` grouped by key, the groups in the order of their keys. -/
def groupsOf (l : List α) : List (κ × List α) :=
  l.foldl (fun groups a => pushGroup key a groups) []

/-- An ordered map from keys to vectors of elements with that key. -/
structure IsGrouping (groups : List (κ × List α)) : Prop where
  /-- The keys increase. -/
  sorted : groups.Pairwise (fun g g' => g.1 < g'.1)
  /-- An element stands under its key. -/
  keyed : ∀ g ∈ groups, ∀ a ∈ g.2, key a = g.1

lemma pushGroup_perm (a : α) (groups : List (κ × List α)) :
    ((pushGroup key a groups).flatMap Prod.snd).Perm (a :: groups.flatMap Prod.snd) := by
  induction groups with
  | nil => exact List.Perm.refl _
  | cons g rest ih =>
      obtain ⟨k, group⟩ := g
      rw [pushGroup]
      split
      · exact List.Perm.refl _
      · split
        · simp only [List.flatMap_cons, List.append_assoc]
          exact List.perm_middle
        · simp only [List.flatMap_cons]
          exact (ih.append_left group).trans List.perm_middle

/-- A key of the map after a push is the new element's or was there before. -/
lemma key_of_mem_pushGroup {a : α} {groups : List (κ × List α)} {g : κ × List α}
    (hg : g ∈ pushGroup key a groups) : g.1 = key a ∨ ∃ g' ∈ groups, g'.1 = g.1 := by
  induction groups with
  | nil => exact Or.inl (by rw [List.mem_singleton.mp hg])
  | cons g₀ rest ih =>
      obtain ⟨k, group⟩ := g₀
      rw [pushGroup] at hg
      split at hg
      · rcases List.mem_cons.mp hg with rfl | hg
        · exact Or.inl rfl
        · exact Or.inr ⟨g, hg, rfl⟩
      · split at hg
        · rcases List.mem_cons.mp hg with rfl | hg
          · exact Or.inr ⟨(k, group), List.mem_cons_self, rfl⟩
          · exact Or.inr ⟨g, List.mem_cons_of_mem _ hg, rfl⟩
        · rcases List.mem_cons.mp hg with rfl | hg
          · exact Or.inr ⟨(k, group), List.mem_cons_self, rfl⟩
          · rcases ih hg with h | ⟨g', hg', h⟩
            · exact Or.inl h
            · exact Or.inr ⟨g', List.mem_cons_of_mem _ hg', h⟩

lemma IsGrouping.pushGroup {groups : List (κ × List α)} (hgroups : IsGrouping key groups)
    (a : α) : IsGrouping key (pushGroup key a groups) := by
  induction groups with
  | nil => exact ⟨by simp [StablecoinSystem.pushGroup], by simp [StablecoinSystem.pushGroup]⟩
  | cons g rest ih =>
      obtain ⟨k, group⟩ := g
      obtain ⟨hk, hsorted⟩ := List.pairwise_cons.mp hgroups.sorted
      have hkeyed := List.forall_mem_cons.mp hgroups.keyed
      rw [StablecoinSystem.pushGroup]
      split
      · rename_i hlt
        refine ⟨List.pairwise_cons.mpr ⟨?_, hgroups.sorted⟩,
          List.forall_mem_cons.mpr ⟨by simp, hgroups.keyed⟩⟩
        intro g hg
        rcases List.mem_cons.mp hg with rfl | hg
        · exact hlt
        · exact hlt.trans (hk g hg)
      · split
        · rename_i heq
          refine ⟨List.pairwise_cons.mpr ⟨hk, hsorted⟩,
            List.forall_mem_cons.mpr ⟨fun b hb => ?_, hkeyed.2⟩⟩
          rcases List.mem_append.mp hb with hb | hb
          · exact hkeyed.1 b hb
          · rw [List.mem_singleton.mp hb, heq]
        · rename_i hlt heq
          have hrest := ih ⟨hsorted, hkeyed.2⟩
          refine ⟨List.pairwise_cons.mpr ⟨fun g hg => ?_, hrest.sorted⟩,
            List.forall_mem_cons.mpr ⟨hkeyed.1, hrest.keyed⟩⟩
          rcases key_of_mem_pushGroup key hg with h | ⟨g', hg', h⟩
          · rw [h]
            exact lt_of_le_of_ne (not_lt.mp hlt) (Ne.symm heq)
          · rw [← h]
            exact hk g' hg'

lemma foldl_pushGroup (l : List α) {groups : List (κ × List α)} (hgroups : IsGrouping key groups) :
    IsGrouping key (l.foldl (fun groups a => pushGroup key a groups) groups) ∧
      ((l.foldl (fun groups a => pushGroup key a groups) groups).flatMap Prod.snd).Perm
        (l ++ groups.flatMap Prod.snd) := by
  induction l generalizing groups with
  | nil => exact ⟨hgroups, List.Perm.refl _⟩
  | cons a l ih =>
      obtain ⟨hkeep, hperm⟩ := ih (hgroups.pushGroup key a)
      refine ⟨hkeep, hperm.trans ?_⟩
      exact ((pushGroup_perm key a groups).append_left l).trans List.perm_middle

lemma groupsOf_isGrouping (l : List α) : IsGrouping key (groupsOf key l) :=
  (foldl_pushGroup key l ⟨List.Pairwise.nil, by simp⟩).1

lemma groupsOf_perm (l : List α) : ((groupsOf key l).flatMap Prod.snd).Perm l := by
  have hnil : IsGrouping key [] := ⟨List.Pairwise.nil, by simp⟩
  have h := (foldl_pushGroup key l hnil).2
  rwa [List.flatMap_nil, List.append_nil] at h

/-- No group is empty. -/
lemma pushGroup_ne_nil {a : α} {groups : List (κ × List α)} (h : ∀ g ∈ groups, g.2 ≠ []) :
    ∀ g ∈ pushGroup key a groups, g.2 ≠ [] := by
  induction groups with
  | nil => simp [pushGroup]
  | cons g groups ih =>
      obtain ⟨k, group⟩ := g
      obtain ⟨hg, hrest⟩ := List.forall_mem_cons.mp h
      rw [pushGroup]
      split
      · exact List.forall_mem_cons.mpr ⟨List.cons_ne_nil _ _, h⟩
      · split
        · exact List.forall_mem_cons.mpr ⟨by simp, hrest⟩
        · exact List.forall_mem_cons.mpr ⟨hg, ih hrest⟩

lemma groupsOf_ne_nil (l : List α) : ∀ g ∈ groupsOf key l, g.2 ≠ [] :=
  List.foldlRecOn l _ (motive := fun groups : List (κ × List α) => ∀ g ∈ groups, g.2 ≠ [])
    (by simp) fun _ h _ _ => pushGroup_ne_nil key h

/-- The first group is what has its key. -/
lemma IsGrouping.filter_head {k : κ} {group : List α} {rest : List (κ × List α)}
    (h : IsGrouping key ((k, group) :: rest)) :
    (group ++ rest.flatMap Prod.snd).filter (fun a => key a = k) = group := by
  obtain ⟨hkey, hkeyed⟩ := List.forall_mem_cons.mp h.keyed
  have hgroup : group.filter (fun a => key a = k) = group :=
    List.filter_eq_self.mpr fun a ha => by simpa using hkey a ha
  have hrest : (rest.flatMap Prod.snd).filter (fun a => key a = k) = [] := by
    refine List.filter_eq_nil_iff.mpr fun a ha heq => ?_
    obtain ⟨g, hg, ha⟩ := List.mem_flatMap.mp ha
    have hlt : k < g.1 := List.rel_of_pairwise_cons h.sorted hg
    rw [← hkeyed g hg a ha] at hlt
    exact hlt.ne' (of_decide_eq_true heq)
  rw [List.filter_append, hgroup, hrest, List.append_nil]

/-- Groups that are not empty can be told apart in their concatenation. -/
theorem IsGrouping.eq_of_flatMap_eq {groups groups' : List (κ × List α)}
    (h : IsGrouping key groups) (h' : IsGrouping key groups') (hne : ∀ g ∈ groups, g.2 ≠ [])
    (hne' : ∀ g ∈ groups', g.2 ≠ []) (heq : groups.flatMap Prod.snd = groups'.flatMap Prod.snd) :
    groups = groups' := by
  induction groups generalizing groups' with
  | nil =>
      cases groups' with
      | nil => rfl
      | cons g' rest' =>
          have hnil := (List.append_eq_nil_iff.mp heq.symm).1
          exact absurd hnil (hne' g' List.mem_cons_self)
  | cons g rest ih =>
      obtain ⟨k, group⟩ := g
      obtain ⟨hgroup, hnerest⟩ := List.forall_mem_cons.mp hne
      cases groups' with
      | nil => exact absurd (List.append_eq_nil_iff.mp heq).1 hgroup
      | cons g' rest' =>
          obtain ⟨k', group'⟩ := g'
          obtain ⟨hgroup', hnerest'⟩ := List.forall_mem_cons.mp hne'
          -- the first element tells the key, the key tells the group
          obtain ⟨a, as, rfl⟩ := List.exists_cons_of_ne_nil hgroup
          obtain ⟨a', as', rfl⟩ := List.exists_cons_of_ne_nil hgroup'
          have hflat : a :: as ++ rest.flatMap Prod.snd = a' :: as' ++ rest'.flatMap Prod.snd := heq
          have hk : k = k' := calc
            k = key a := (h.keyed _ List.mem_cons_self a List.mem_cons_self).symm
            _ = key a' := by rw [(List.cons.inj hflat).1]
            _ = k' := h'.keyed _ List.mem_cons_self a' List.mem_cons_self
          subst hk
          have hsame := h.filter_head
          rw [hflat, h'.filter_head] at hsame
          rw [← hsame, List.append_cancel_left_eq] at hflat
          rw [hsame, ih ⟨h.sorted.of_cons, (List.forall_mem_cons.mp h.keyed).2⟩
            ⟨h'.sorted.of_cons, (List.forall_mem_cons.mp h'.keyed).2⟩ hnerest hnerest' hflat]

/-! ### Sorting each group -/

variable (le : α → α → Bool)

/-- The groups one after the other, each sorted. -/
def concatSorted (groups : List (κ × List α)) : List α :=
  groups.flatMap (fun g => g.2.mergeSort le)

omit [LinearOrder κ] in
lemma concatSorted_perm (groups : List (κ × List α)) :
    (concatSorted le groups).Perm (groups.flatMap Prod.snd) :=
  List.Perm.flatMap_left groups fun g _ => List.mergeSort_perm g.2 le

/-- The concatenation is ordered by key, and inside a key by the comparison. -/
lemma concatSorted_pairwise (htrans : ∀ a b c, le a b → le b c → le a c)
    (htotal : ∀ a b, le a b || le b a) {groups : List (κ × List α)}
    (hgroups : IsGrouping key groups) :
    (concatSorted le groups).Pairwise
      (fun a b => key a < key b ∨ key a = key b ∧ le a b = true) := by
  induction groups with
  | nil => exact List.Pairwise.nil
  | cons g rest ih =>
      obtain ⟨hlt, hsorted⟩ := List.pairwise_cons.mp hgroups.sorted
      obtain ⟨hkeyed, hkeyed'⟩ := List.forall_mem_cons.mp hgroups.keyed
      rw [concatSorted, List.flatMap_cons]
      refine List.pairwise_append.mpr ⟨?_, ih ⟨hsorted, hkeyed'⟩, ?_⟩
      · refine (List.pairwise_mergeSort htrans htotal g.2).imp_of_mem ?_
        intro a b ha hb hab
        have ha := hkeyed a (List.mem_mergeSort.mp ha)
        have hb := hkeyed b (List.mem_mergeSort.mp hb)
        exact Or.inr ⟨ha.trans hb.symm, hab⟩
      · intro a ha b hb
        obtain ⟨g', hg', hb⟩ := List.mem_flatMap.mp hb
        have ha := hkeyed a (List.mem_mergeSort.mp ha)
        have hb := hkeyed' g' hg' b (List.mem_mergeSort.mp hb)
        exact Or.inl (by rw [ha, hb]; exact hlt g' hg')

end Groups

end StablecoinSystem
