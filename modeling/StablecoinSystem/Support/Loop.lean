import Mathlib.Data.List.Induction

/-!
Loops over lists.

A loop whose body may fail is a `foldlM` in `Option`, one whose body does not
is a `foldl`. The rules below are induction over the part of the list that has
been processed, with what the whole list says about the element at hand.

* `bounds_of_split_reverse`, `add_length_of_split_reverse`: where a loop down over
  numbers stands;
* `foldlM_induction`: what the body keeps holds after the loop;
* `exists_foldlM`: the loop does not fail if its body does not;
* `foldlM_congr`: bodies that do the same along the loop;
* `foldlM_simulation`, `foldlM_rel`: a relation that two bodies keep;
* `foldl_induction`: the rule for a loop that does not fail;
* `ForallSplit`: what holds of each element and those before it;
* `foldl_iff_forallSplit`: the exact condition on the steps of a loop for what
  it keeps;
* `find?_eq_some_iff`: a search that can find but one.
-/

namespace StablecoinSystem

variable {α β : Type}

lemma mem_of_split {l pre post : List α} {a : α} (h : l = pre ++ a :: post) : a ∈ l := by
  rw [h]
  exact List.mem_append_right _ (List.mem_cons_self ..)

/-- Where a loop down over numbers stands: within the bounds, and below all that
it has passed. -/
lemma bounds_of_split_reverse {lo n k : ℕ} {pre post : List ℕ}
    (h : (List.range' lo n).reverse = pre ++ k :: post) :
    lo ≤ k ∧ k < lo + n ∧ ∀ j ∈ pre, k < j := by
  have hfall : (List.range' lo n).reverse.Pairwise (· > ·) := by
    rw [List.pairwise_reverse]
    exact List.pairwise_lt_range' 1
  obtain ⟨hlo, hhi⟩ := List.mem_range'_1.mp (List.mem_reverse.mp (mem_of_split h))
  rw [h, List.pairwise_append] at hfall
  exact ⟨hlo, hhi, fun j hj => hfall.2.2 j hj k (List.mem_cons_self ..)⟩

/-- The number at hand and those passed make up the way from the top. -/
lemma add_length_of_split_reverse {lo n k : ℕ} {pre post : List ℕ}
    (h : (List.range' lo n).reverse = pre ++ k :: post) : k + pre.length + 1 = lo + n := by
  have hlength := congrArg List.length h
  rw [List.length_reverse, List.length_range', List.length_append, List.length_cons] at hlength
  have hget := congrArg (·[pre.length]?) h
  simp only [List.getElem?_append_right (Nat.le_refl pre.length), Nat.sub_self,
    List.getElem?_cons_zero] at hget
  rw [List.getElem?_reverse (by rw [List.length_range']; omega), List.length_range',
    List.getElem?_range' (by omega)] at hget
  have hk := Option.some.inj hget
  omega

/-- A loop that puts something out where it meets an element puts it out once. -/
lemma flatMap_ite_eq [DecidableEq α] {l : List α} (hl : l.Nodup) (a : α) (out : List β) :
    (l.flatMap fun x => if x = a then out else []) = if a ∈ l then out else [] := by
  induction l with
  | nil => rfl
  | cons x l ih =>
      obtain ⟨hx, hl⟩ := List.nodup_cons.mp hl
      rw [List.flatMap_cons, ih hl]
      by_cases hxa : x = a
      · subst hxa
        simp [hx]
      · simp [hxa, Ne.symm hxa]

lemma foldlM_cons_eq_some {f : β → α → Option β} {b b' : β} {a : α} {l : List α} :
    (a :: l).foldlM f b = some b' ↔ ∃ b₁, f b a = some b₁ ∧ l.foldlM f b₁ = some b' := by
  rw [List.foldlM_cons]
  exact Option.bind_eq_some_iff

/-- What the body keeps, for each element after those before it, holds after
the loop. -/
theorem foldlM_induction {f : β → α → Option β} {I : List α → β → Prop} {l : List α} {b b' : β}
    (hinit : I [] b)
    (hbody : ∀ pre a post b b', l = pre ++ a :: post → I pre b → f b a = some b' →
      I (pre ++ [a]) b')
    (hloop : l.foldlM f b = some b') : I l b' := by
  suffices h : ∀ post pre b, l = pre ++ post → I pre b → post.foldlM f b = some b' → I l b' from
    h l [] b rfl hinit hloop
  intro post
  induction post with
  | nil =>
      intro pre b hl hI hloop
      cases hloop
      rw [hl, List.append_nil]
      exact hI
  | cons a post ih =>
      intro pre b hl hI hloop
      obtain ⟨b₁, hb₁, hrest⟩ := foldlM_cons_eq_some.mp hloop
      refine ih (pre ++ [a]) b₁ ?_ (hbody pre a post b b₁ hl hI hb₁) hrest
      rw [hl, List.append_assoc, List.singleton_append]

/-- A loop whose body does not fail, as long as its invariant holds, does not
fail. -/
theorem exists_foldlM {f : β → α → Option β} {I : List α → β → Prop} {l : List α} {b : β}
    (hinit : I [] b)
    (hbody : ∀ pre a post b, l = pre ++ a :: post → I pre b →
      ∃ b', f b a = some b' ∧ I (pre ++ [a]) b') :
    ∃ b', l.foldlM f b = some b' ∧ I l b' := by
  suffices h : ∀ post pre b, l = pre ++ post → I pre b →
      ∃ b', post.foldlM f b = some b' ∧ I l b' from h l [] b rfl hinit
  intro post
  induction post with
  | nil =>
      intro pre b hl hI
      rw [List.append_nil] at hl
      exact ⟨b, rfl, hl ▸ hI⟩
  | cons a post ih =>
      intro pre b hl hI
      obtain ⟨b₁, hb₁, hI₁⟩ := hbody pre a post b hl hI
      obtain ⟨b', hb', hI'⟩ := ih (pre ++ [a]) b₁
        (by rw [hl, List.append_assoc, List.singleton_append]) hI₁
      exact ⟨b', foldlM_cons_eq_some.mpr ⟨b₁, hb₁, hb'⟩, hI'⟩

/-- Bodies that do the same, as long as the invariant of the loop holds, give
the same loop. -/
lemma foldlM_congr {f g : β → α → Option β} {I : List α → β → Prop} {l : List α} {b : β}
    (hinit : I [] b)
    (hbody : ∀ pre a post b, l = pre ++ a :: post → I pre b →
      f b a = g b a ∧ ∀ b', f b a = some b' → I (pre ++ [a]) b') :
    l.foldlM f b = l.foldlM g b := by
  suffices h : ∀ post pre b, l = pre ++ post → I pre b → post.foldlM f b = post.foldlM g b from
    h l [] b rfl hinit
  intro post
  induction post with
  | nil => exact fun _ _ _ _ => rfl
  | cons a post ih =>
      intro pre b hl hI
      obtain ⟨hsame, hnext⟩ := hbody pre a post b hl hI
      rw [List.foldlM_cons, List.foldlM_cons, ← hsame]
      cases hfa : f b a with
      | none => rfl
      | some b' =>
          refine ih (pre ++ [a]) b' ?_ (hnext b' hfa)
          rw [hl, List.append_assoc, List.singleton_append]

/-- A relation that the second body can keep whenever the first one succeeds is
kept by the loops. -/
lemma foldlM_simulation {γ : Type} {f : β → α → Option β} {g : γ → α → Option γ}
    {R : β → γ → Prop} {l : List α} {b b' : β} {c : γ} (hinit : R b c)
    (hbody : ∀ a ∈ l, ∀ b c b', R b c → f b a = some b' → ∃ c', g c a = some c' ∧ R b' c')
    (hloop : l.foldlM f b = some b') : ∃ c', l.foldlM g c = some c' ∧ R b' c' := by
  induction l generalizing b c with
  | nil =>
      cases hloop
      exact ⟨c, rfl, hinit⟩
  | cons a l ih =>
      obtain ⟨b₁, hb₁, hrest⟩ := foldlM_cons_eq_some.mp hloop
      obtain ⟨c₁, hc₁, hR⟩ := hbody a (List.mem_cons_self ..) b c b₁ hinit hb₁
      obtain ⟨c', hc', hR'⟩ := ih hR (fun a ha => hbody a (List.mem_cons_of_mem _ ha)) hrest
      exact ⟨c', foldlM_cons_eq_some.mpr ⟨c₁, hc₁, hc'⟩, hR'⟩

/-- A relation that two bodies keep, failing together, is kept by the loops. -/
lemma foldlM_rel {γ : Type} {f : β → α → Option β} {g : γ → α → Option γ} {R : β → γ → Prop}
    {l : List α} {b : β} {c : γ} (hinit : R b c)
    (hbody : ∀ a ∈ l, ∀ b c, R b c → Option.Rel R (f b a) (g c a)) :
    Option.Rel R (l.foldlM f b) (l.foldlM g c) := by
  induction l generalizing b c with
  | nil => exact .some hinit
  | cons a l ih =>
      rw [List.foldlM_cons, List.foldlM_cons]
      have hstep := hbody a (List.mem_cons_self ..) b c hinit
      generalize f b a = b₁ at hstep ⊢
      generalize g c a = c₁ at hstep ⊢
      cases hstep with
      | none => exact .none
      | some hR => exact ih hR fun a ha => hbody a (List.mem_cons_of_mem _ ha)

/-- What the body keeps, for each element after those before it, holds after
a loop that does not fail. -/
theorem foldl_induction {f : β → α → β} {I : List α → β → Prop} {l : List α} {b : β}
    (hinit : I [] b)
    (hbody : ∀ pre a post, l = pre ++ a :: post → I pre (pre.foldl f b) →
      I (pre ++ [a]) (f (pre.foldl f b) a)) : I l (l.foldl f b) := by
  suffices h : ∀ post pre, l = pre ++ post → I pre (pre.foldl f b) → I l (l.foldl f b) from
    h l [] rfl hinit
  intro post
  induction post with
  | nil =>
      intro pre hl hI
      rw [hl, List.append_nil]
      exact hI
  | cons a post ih =>
      intro pre hl hI
      refine ih (pre ++ [a]) ?_ ?_
      · rw [hl, List.append_assoc, List.singleton_append]
      · rw [List.foldl_append]
        exact hbody pre a post hl hI

/-! ### Elements and those before them -/

/-- `P` holds of each element and the elements before it. -/
def ForallSplit (P : List α → α → Prop) (l : List α) : Prop :=
  ∀ pre a post, l = pre ++ a :: post → P pre a

variable {P : List α → α → Prop} {l l' : List α}

lemma ForallSplit.of_append (h : ForallSplit P (l ++ l')) : ForallSplit P l := by
  intro pre a post hl
  exact h pre a (post ++ l') (by rw [hl, List.append_assoc, List.cons_append])

lemma forallSplit_congr {P' : List α → α → Prop}
    (h : ∀ pre a post, l = pre ++ a :: post → (P pre a ↔ P' pre a)) :
    ForallSplit P l ↔ ForallSplit P' l :=
  ⟨fun hP pre a post hl => (h pre a post hl).mp (hP pre a post hl),
    fun hP pre a post hl => (h pre a post hl).mpr (hP pre a post hl)⟩

lemma forallSplit_append_singleton {a : α} :
    ForallSplit P (l ++ [a]) ↔ ForallSplit P l ∧ P l a := by
  constructor
  · intro h
    exact ⟨h.of_append, h l a [] rfl⟩
  · rintro ⟨h, ha⟩ pre b post hl
    rcases List.eq_nil_or_concat post with rfl | ⟨post, b', rfl⟩
    · obtain ⟨rfl, hab⟩ := List.append_inj' hl rfl
      cases hab
      exact ha
    · rw [List.concat_eq_append, ← List.cons_append, ← List.append_assoc] at hl
      exact h pre b post (List.append_inj' hl rfl).1

lemma forallSplit_iff_get :
    ForallSplit P l ↔ ∀ i : Fin l.length, P (l.take i) (l.get i) := by
  constructor
  · intro h i
    refine h _ _ (l.drop (i + 1)) ?_
    rw [List.get_eq_getElem, List.getElem_cons_drop, List.take_append_drop]
  · rintro h pre a post rfl
    simpa using h ⟨pre.length, by simp⟩

/-- If a step keeps `I` exactly when it meets `P`, a loop keeps `I` exactly when
all its steps meet `P`. -/
theorem foldl_iff_forallSplit {f : β → α → β} {I : β → Prop} {P : β → α → Prop} {b : β}
    (hinit : I b) (hstep : ∀ a ∈ l, ∀ b, I (f b a) ↔ I b ∧ P b a) :
    I (l.foldl f b) ↔ ForallSplit (fun pre a => P (pre.foldl f b) a) l := by
  induction l using List.reverseRecOn with
  | nil => exact ⟨fun _ pre a post hl => by simp at hl, fun _ => hinit⟩
  | append_singleton l a ih =>
      have hrest := ih fun a' ha' => hstep a' (List.mem_append_left _ ha')
      rw [List.foldl_append, forallSplit_append_singleton, ← hrest]
      exact hstep a (by simp) (l.foldl f b)

instance [∀ pre a, Decidable (P pre a)] : Decidable (ForallSplit P l) :=
  decidable_of_iff _ forallSplit_iff_get.symm

/-- A search for what but one element can be finds it. -/
lemma find?_eq_some_iff {l : List α} {p : α → Bool} {a : α}
    (hunique : ∀ x ∈ l, ∀ y ∈ l, p x = true → p y = true → x = y) :
    l.find? p = some a ↔ a ∈ l ∧ p a = true := by
  constructor
  · intro h
    exact ⟨List.mem_of_find?_eq_some h, List.find?_some h⟩
  · rintro ⟨ha, hp⟩
    cases hfind : l.find? p with
    | none => exact absurd hp (List.find?_eq_none.mp hfind a ha)
    | some b =>
        rw [hunique b (List.mem_of_find?_eq_some hfind) a ha (List.find?_some hfind) hp]

end StablecoinSystem
