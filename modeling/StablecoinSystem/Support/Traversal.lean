import Mathlib.Data.Finset.Card
import Mathlib.Data.List.Nodup
import Mathlib.Logic.Relation

/-!
Traversal of a graph with a stack.

A node is expanded by a function that gives its successors in order, or fails.
`traverse` pops a node, lists it as visited and pushes those successors whose
key no node has been pushed with yet. The start itself is not marked: it would
be visited again if it could be reached from itself.

* `Walked`: what holds of the stack, the seen keys and the visited nodes at any
  time, and so when the stack is empty (`walked_traverse`).
* `reflTransGen_of_mem_traverse`, `mem_traverse_of_reflTransGen`: the visited
  nodes are those reachable from the start; `nodup_traverse`: each is visited
  once.
* `exists_traverse_eq`: fuel for every node is enough; `traverse_mono`: more
  fuel does not change the result; `traverse_congr`: nor do the successors of
  nodes that are not visited; `traverse_map`: nor what the nodes carry besides.
-/

namespace StablecoinSystem

variable {α κ : Type}

/-- `z` is a successor of `x`. -/
def Edge (succ : α → Option (List α)) (x z : α) : Prop := ∃ zs, succ x = some zs ∧ z ∈ zs

/-- What holds during a traversal from `start`: the nodes met so far are the
start and the ones pushed since, which are reachable and have distinct keys. -/
structure Walked (succ : α → Option (List α)) (key : α → κ) (start : α) (stack : List α)
    (seen : List κ) (visited pushed : List α) : Prop where
  perm : (visited ++ stack).Perm (start :: pushed)
  seen_eq : seen = pushed.map key
  nodup : seen.Nodup
  reach : ∀ z ∈ pushed, Relation.TransGen (Edge succ) start z

/-- The start and the nodes pushed are reachable. -/
lemma Walked.reflTransGen {succ : α → Option (List α)} {key : α → κ} {start x : α}
    {stack visited pushed : List α} {seen : List κ}
    (h : Walked succ key start stack seen visited pushed) (hx : x ∈ visited ++ stack) :
    Relation.ReflTransGen (Edge succ) start x := by
  rcases List.mem_cons.mp (h.perm.mem_iff.mp hx) with rfl | hx
  · exact .refl
  · exact (h.reach x hx).to_reflTransGen

variable [DecidableEq κ]

/-- Push the nodes whose keys have not been seen, and mark the keys as seen.
The head of the stack is its top. -/
def pushUnseen (key : α → κ) : List α → List α → List κ → List α × List κ
  | [], stack, seen => (stack, seen)
  | z :: zs, stack, seen =>
      if key z ∈ seen then pushUnseen key zs stack seen
      else pushUnseen key zs (z :: stack) (key z :: seen)

/-- Expand the nodes of a stack until it is empty. `none` if an expansion fails
or the fuel does not suffice. -/
def traverse (succ : α → Option (List α)) (key : α → κ) :
    ℕ → List α → List κ → List α → Option (List α)
  | _, [], _, visited => some visited
  | 0, _ :: _, _, _ => none
  | fuel + 1, x :: stack, seen, visited =>
      match succ x with
      | none => none
      | some zs =>
          traverse succ key fuel (pushUnseen key zs stack seen).1 (pushUnseen key zs stack seen).2
            (visited ++ [x])

variable {succ succ' : α → Option (List α)} {key : α → κ} {start x : α} {fuel : ℕ}
  {stack visited pushed zs result : List α} {seen : List κ}

/-! ### What a traversal visits -/

/-- Whatever is pushed, or has been seen before, is seen afterwards. -/
lemma mem_pushUnseen (key : α → κ) (zs stack : List α) (seen : List κ) :
    (∀ z ∈ zs, key z ∈ (pushUnseen key zs stack seen).2) ∧
      ∀ k ∈ seen, k ∈ (pushUnseen key zs stack seen).2 := by
  induction zs generalizing stack seen with
  | nil => exact ⟨fun _ hz => absurd hz List.not_mem_nil, fun _ hk => hk⟩
  | cons z zs ih =>
      by_cases hseen : key z ∈ seen
      · obtain ⟨hall, hsub⟩ := ih stack seen
        rw [pushUnseen, if_pos hseen]
        exact ⟨List.forall_mem_cons.mpr ⟨hsub _ hseen, hall⟩, hsub⟩
      · obtain ⟨hall, hsub⟩ := ih (z :: stack) (key z :: seen)
        rw [pushUnseen, if_neg hseen]
        exact ⟨List.forall_mem_cons.mpr ⟨hsub _ (List.mem_cons_self ..), hall⟩,
          fun k hk => hsub k (List.mem_cons_of_mem _ hk)⟩

/-- The stack grows by pushed nodes only. -/
lemma mem_stack_of_mem_pushUnseen (hx : x ∈ (pushUnseen key zs stack seen).1) :
    x ∈ zs ∨ x ∈ stack := by
  induction zs generalizing stack seen with
  | nil => exact Or.inr hx
  | cons z zs ih =>
      rw [pushUnseen] at hx
      split at hx
      · exact (ih hx).imp_left (List.mem_cons_of_mem z)
      · rcases ih hx with hmem | hmem
        · exact Or.inl (List.mem_cons_of_mem z hmem)
        · rcases List.mem_cons.mp hmem with rfl | hmem
          · exact Or.inl (List.mem_cons_self ..)
          · exact Or.inr hmem

/-- Pushing nodes that are reachable. -/
lemma Walked.push (h : Walked succ key start stack seen visited pushed)
    (hzs : ∀ z ∈ zs, Relation.TransGen (Edge succ) start z) :
    ∃ pushed', Walked succ key start (pushUnseen key zs stack seen).1
      (pushUnseen key zs stack seen).2 visited pushed' := by
  induction zs generalizing stack seen pushed with
  | nil => exact ⟨pushed, h⟩
  | cons z zs ih =>
      rw [List.forall_mem_cons] at hzs
      by_cases hseen : key z ∈ seen
      · rw [pushUnseen, if_pos hseen]
        exact ih h hzs.2
      · rw [pushUnseen, if_neg hseen]
        have hz : Walked succ key start (z :: stack) (key z :: seen) visited (z :: pushed) := by
          refine ⟨?_, ?_, ?_, ?_⟩
          · exact List.perm_middle.trans ((h.perm.cons z).trans (List.Perm.swap _ _ _))
          · rw [h.seen_eq, List.map_cons]
          · exact List.nodup_cons.mpr ⟨hseen, h.nodup⟩
          · exact List.forall_mem_cons.mpr ⟨hzs.1, h.reach⟩
        exact ih hz hzs.2

/-- At the end of a traversal the stack is empty, and the successors of the
visited nodes have been seen. -/
lemma walked_traverse (hresult : traverse succ key fuel stack seen visited = some result)
    (h : Walked succ key start stack seen visited pushed)
    (hseen : ∀ x ∈ visited, ∀ z, Edge succ x z → key z ∈ seen) :
    ∃ seen' pushed', Walked succ key start [] seen' result pushed' ∧
      ∀ x ∈ result, ∀ z, Edge succ x z → key z ∈ seen' := by
  induction fuel generalizing stack seen visited pushed with
  | zero =>
      cases stack with
      | nil =>
          cases hresult
          exact ⟨seen, pushed, h, hseen⟩
      | cons x stack => cases hresult
  | succ fuel ih =>
      cases stack with
      | nil =>
          cases hresult
          exact ⟨seen, pushed, h, hseen⟩
      | cons x stack =>
          rw [traverse] at hresult
          split at hresult
          · cases hresult
          · rename_i zs hsucc
            have hx := h.reflTransGen (List.mem_append_right visited (List.mem_cons_self ..))
            have hpopped : Walked succ key start stack seen (visited ++ [x]) pushed :=
              ⟨by rw [List.append_assoc]; exact h.perm, h.seen_eq, h.nodup, h.reach⟩
            obtain ⟨pushed', hpushed⟩ := hpopped.push fun z hz => .tail' hx ⟨zs, hsucc, hz⟩
            refine ih hresult hpushed fun y hy z hz => ?_
            rcases List.mem_append.mp hy with hy | hy
            · exact (mem_pushUnseen key zs stack seen).2 _ (hseen y hy z hz)
            · obtain ⟨zs', hsucc', hz'⟩ := hz
              rw [List.mem_singleton.mp hy, hsucc] at hsucc'
              cases hsucc'
              exact (mem_pushUnseen key zs stack seen).1 z hz'

lemma walked_of_traverse (h : traverse succ key fuel [start] [] [] = some result) :
    ∃ seen' pushed', Walked succ key start [] seen' result pushed' ∧
      ∀ x ∈ result, ∀ z, Edge succ x z → key z ∈ seen' := by
  have hinit : Walked succ key start [start] [] [] [] :=
    ⟨List.Perm.refl _, rfl, List.nodup_nil, fun _ hz => absurd hz List.not_mem_nil⟩
  exact walked_traverse h hinit fun _ hx => absurd hx List.not_mem_nil

/-- What a traversal visits is reachable. -/
theorem reflTransGen_of_mem_traverse (h : traverse succ key fuel [start] [] [] = some result)
    (hx : x ∈ result) : Relation.ReflTransGen (Edge succ) start x := by
  obtain ⟨seen', pushed', hw, -⟩ := walked_of_traverse h
  exact hw.reflTransGen (by rwa [List.append_nil])

/-- Every node that is visited can be expanded. -/
lemma exists_succ_of_mem_traverse (h : traverse succ key fuel stack seen visited = some result)
    (hvisited : ∀ x ∈ visited, ∃ zs, succ x = some zs) :
    ∀ x ∈ result, ∃ zs, succ x = some zs := by
  induction fuel generalizing stack seen visited with
  | zero =>
      cases stack with
      | nil =>
          cases h
          exact hvisited
      | cons x stack => cases h
  | succ fuel ih =>
      cases stack with
      | nil =>
          cases h
          exact hvisited
      | cons x stack =>
          rw [traverse] at h
          split at h
          · cases h
          · rename_i zs hsucc
            refine ih h (List.forall_mem_append.mpr ⟨hvisited, ?_⟩)
            exact List.forall_mem_singleton.mpr ⟨zs, hsucc⟩

/-- The start is visited. -/
lemma start_mem_traverse (h : traverse succ key fuel [start] [] [] = some result) :
    start ∈ result := by
  obtain ⟨seen', pushed', hw, -⟩ := walked_of_traverse h
  have hmem := hw.perm.mem_iff.mpr (List.mem_cons_self ..)
  rwa [List.append_nil] at hmem

/-- If the keys tell the nodes apart, what is reachable is visited. -/
theorem mem_traverse_of_reflTransGen
    (hkey : ∀ x y z z', Edge succ x z → Edge succ y z' → key z = key z' → z = z')
    (h : traverse succ key fuel [start] [] [] = some result)
    (hx : Relation.ReflTransGen (Edge succ) start x) : x ∈ result := by
  obtain ⟨seen', pushed', hw, hseen⟩ := walked_of_traverse h
  induction hx with
  | refl => exact start_mem_traverse h
  | @tail y z _ hz ih =>
      have hk := hseen y ih z hz
      rw [hw.seen_eq] at hk
      obtain ⟨z', hz', heq⟩ := List.mem_map.mp hk
      -- the node pushed with the key of `z` is itself a successor, hence `z`
      obtain ⟨y', -, hedge⟩ := Relation.TransGen.tail'_iff.mp (hw.reach z' hz')
      rw [← hkey _ _ _ _ hedge hz heq]
      have hmem := hw.perm.mem_iff.mpr (List.mem_cons_of_mem start hz')
      rwa [List.append_nil] at hmem

/-- Unless the start is reachable from itself, no node is visited twice. -/
theorem nodup_traverse (hstart : ¬Relation.TransGen (Edge succ) start start)
    (h : traverse succ key fuel [start] [] [] = some result) : result.Nodup := by
  obtain ⟨seen', pushed', hw, -⟩ := walked_of_traverse h
  have hperm := hw.perm
  rw [List.append_nil] at hperm
  refine hperm.nodup_iff.mpr (List.nodup_cons.mpr ⟨fun hmem => hstart (hw.reach start hmem), ?_⟩)
  have hnodup := hw.nodup
  rw [hw.seen_eq] at hnodup
  exact hnodup.of_map

/-! ### Fuel -/

/-- Keys of a list of nodes that have not been seen. -/
def unseen (key : α → κ) (nodes : List α) (seen : List κ) : Finset κ :=
  (nodes.map key).toFinset \ seen.toFinset

/-- A node that is pushed takes its key from the unseen ones. -/
lemma length_pushUnseen_le (key : α → κ) (stack : List α) (seen : List κ) (nodes : List α)
    (hzs : ∀ z ∈ zs, z ∈ nodes) :
    (pushUnseen key zs stack seen).1.length +
        (unseen key nodes (pushUnseen key zs stack seen).2).card ≤
      stack.length + (unseen key nodes seen).card := by
  induction zs generalizing stack seen with
  | nil => exact le_refl _
  | cons z zs ih =>
      rw [List.forall_mem_cons] at hzs
      by_cases hseen : key z ∈ seen
      · rw [pushUnseen, if_pos hseen]
        exact ih stack seen hzs.2
      · rw [pushUnseen, if_neg hseen]
        refine le_trans (ih (z :: stack) (key z :: seen) hzs.2) ?_
        have hlt : (unseen key nodes (key z :: seen)).card < (unseen key nodes seen).card := by
          refine Finset.card_lt_card (Finset.ssubset_iff_of_subset ?_ |>.mpr ⟨key z, ?_, ?_⟩)
          · intro k hk
            simp only [unseen, Finset.mem_sdiff, List.mem_toFinset, List.mem_cons, not_or] at hk ⊢
            exact ⟨hk.1, hk.2.2⟩
          · simp only [unseen, Finset.mem_sdiff, List.mem_toFinset]
            exact ⟨List.mem_map_of_mem hzs.1, hseen⟩
          · simp [unseen]
        rw [List.length_cons]
        omega

/-- Fuel for the stack and the unseen nodes is enough. -/
lemma exists_traverse_of_le (nodes : List α)
    (hsucc : ∀ x, Relation.ReflTransGen (Edge succ) start x → ∃ zs, succ x = some zs)
    (hnodes : ∀ x z, Edge succ x z → z ∈ nodes)
    (hstack : ∀ x ∈ stack, Relation.ReflTransGen (Edge succ) start x)
    (hfuel : stack.length + (unseen key nodes seen).card ≤ fuel) :
    ∃ result, traverse succ key fuel stack seen visited = some result := by
  induction fuel generalizing stack seen visited with
  | zero =>
      cases stack with
      | nil => exact ⟨visited, rfl⟩
      | cons x stack =>
          rw [List.length_cons] at hfuel
          omega
  | succ fuel ih =>
      cases stack with
      | nil => exact ⟨visited, rfl⟩
      | cons x stack =>
          rw [List.forall_mem_cons] at hstack
          obtain ⟨zs, hzs⟩ := hsucc x hstack.1
          simp only [traverse, hzs]
          refine ih (fun y hy => ?_) ?_
          · rcases mem_stack_of_mem_pushUnseen hy with hy | hy
            · exact hstack.1.tail ⟨zs, hzs, hy⟩
            · exact hstack.2 y hy
          · have hle := length_pushUnseen_le key stack seen nodes
              fun z hz => hnodes x z ⟨zs, hzs, hz⟩
            rw [List.length_cons] at hfuel
            omega

/-- One unit of fuel for the start and one for each other node are enough. -/
theorem exists_traverse_eq (key : α → κ) (nodes : List α)
    (hsucc : ∀ x, Relation.ReflTransGen (Edge succ) start x → ∃ zs, succ x = some zs)
    (hnodes : ∀ x z, Edge succ x z → z ∈ nodes) (hfuel : nodes.length + 1 ≤ fuel) :
    ∃ result, traverse succ key fuel [start] [] [] = some result := by
  refine exists_traverse_of_le nodes hsucc hnodes (List.forall_mem_singleton.mpr .refl) ?_
  have hcard : (unseen key nodes []).card ≤ (nodes.map key).length :=
    le_trans (Finset.card_le_card Finset.sdiff_subset) (List.toFinset_card_le _)
  rw [List.length_map] at hcard
  rw [List.length_singleton]
  omega

/-- More fuel does not change the result. -/
lemma traverse_mono {fuel' : ℕ} (hle : fuel ≤ fuel')
    (h : traverse succ key fuel stack seen visited = some result) :
    traverse succ key fuel' stack seen visited = some result := by
  induction fuel generalizing fuel' stack seen visited with
  | zero =>
      cases stack with
      | nil =>
          rw [← h]
          cases fuel' <;> rfl
      | cons x stack => cases h
  | succ fuel ih =>
      obtain ⟨fuel', rfl⟩ : ∃ n, fuel' = n + 1 := ⟨fuel' - 1, by omega⟩
      cases stack with
      | nil => exact h
      | cons x stack =>
          rw [traverse] at h ⊢
          cases hsucc : succ x with
          | none =>
              rw [hsucc] at h
              cases h
          | some zs =>
              rw [hsucc] at h
              exact ih (Nat.le_of_succ_le_succ hle) h

lemma pushUnseen_map {β : Type} {key' : β → κ} (f : α → β) (stack : List α) (seen : List κ)
    (hkey : ∀ z ∈ zs, key' (f z) = key z) :
    pushUnseen key' (zs.map f) (stack.map f) seen =
      ((pushUnseen key zs stack seen).1.map f, (pushUnseen key zs stack seen).2) := by
  induction zs generalizing stack seen with
  | nil => rfl
  | cons z zs ih =>
      rw [List.forall_mem_cons] at hkey
      rw [List.map_cons, pushUnseen, pushUnseen, hkey.1]
      split
      · exact ih stack seen hkey.2
      · exact ih (z :: stack) (key z :: seen) hkey.2

/-- Functions that expand the nodes of a set alike, a set closed under
successors, give the same traversal of it. -/
lemma traverse_congr {P : α → Prop} (hsucc : ∀ x, P x → succ x = succ' x)
    (hclosed : ∀ x z, P x → Edge succ x z → P z) (hstack : ∀ x ∈ stack, P x) :
    traverse succ key fuel stack seen visited = traverse succ' key fuel stack seen visited := by
  induction fuel generalizing stack seen visited with
  | zero => cases stack <;> rfl
  | succ fuel ih =>
      cases stack with
      | nil => rfl
      | cons x stack =>
          rw [List.forall_mem_cons] at hstack
          rw [traverse, traverse, ← hsucc x hstack.1]
          cases hzs : succ x with
          | none => rfl
          | some zs =>
              refine ih fun y hy => ?_
              rcases mem_stack_of_mem_pushUnseen hy with hy | hy
              · exact hclosed x y hstack.1 ⟨zs, hzs, hy⟩
              · exact hstack.2 y hy

/-- Nodes may carry more than what is expanded: if a function on nodes commutes
with the expansion and keeps the keys, it commutes with the traversal. -/
lemma traverse_map {β : Type} {succ' : β → Option (List β)} {key' : β → κ} (f : α → β)
    (hsucc : ∀ x, succ' (f x) = (succ x).map (List.map f))
    (hkey : ∀ x z, Edge succ x z → key' (f z) = key z) :
    traverse succ' key' fuel (stack.map f) seen (visited.map f) =
      (traverse succ key fuel stack seen visited).map (List.map f) := by
  induction fuel generalizing stack seen visited with
  | zero => cases stack <;> rfl
  | succ fuel ih =>
      cases stack with
      | nil => rfl
      | cons x stack =>
          rw [List.map_cons, traverse, traverse, hsucc]
          cases hzs : succ x with
          | none => rfl
          | some zs =>
              have hpush := pushUnseen_map f stack seen fun z hz => hkey x z ⟨zs, hzs, hz⟩
              simp only [Option.map_some, hpush]
              rw [← List.map_singleton, ← List.map_append]
              exact ih

end StablecoinSystem
