import Mathlib.Data.List.Basic
import Mathlib.Logic.Function.Basic

/-!
Blocks of fixed width, one after another.

A function `f` writes each value as a block of `w` symbols. A list of values is
written block by block, without separators or a count: the length of what is
written says how many blocks there are.

* `flatMap_injective_of_width`: the list can be read back;
* `ne_imp_flatten_ne_iff`: blocks of any width cannot, unless the widths are
  known;
* `exists_flatMap_eq_iff`: if every block of `w` symbols is that of some value,
  what can be read as a list of values is what has a multiple of `w` symbols.
-/

namespace StablecoinSystem

variable {α β : Type} {f : β → List α} {w : ℕ}

lemma length_flatMap_of_width (hlen : ∀ b, (f b).length = w) (l : List β) :
    (l.flatMap f).length = w * l.length := by
  induction l with
  | nil => rfl
  | cons b l ih =>
      rw [List.flatMap_cons, List.length_append, hlen, ih, List.length_cons, Nat.mul_succ,
        Nat.add_comm]

/-- **Blocks of one width can be read back.** -/
theorem flatMap_injective_of_width (hw : 0 < w) (hlen : ∀ b, (f b).length = w)
    (hf : f.Injective) : Function.Injective (List.flatMap f) := by
  intro l l' h
  have hcount : l.length = l'.length := by
    have hlength := congrArg List.length h
    rw [length_flatMap_of_width hlen, length_flatMap_of_width hlen] at hlength
    exact Nat.eq_of_mul_eq_mul_left hw hlength
  have hwidths : ∀ l : List β, (l.map f).map List.length = List.replicate l.length w := by
    intro l
    rw [List.map_map, List.eq_replicate_iff]
    simp [hlen]
  refine List.map_injective_iff.mpr hf (List.eq_iff_flatten_eq.mpr ⟨?_, ?_⟩)
  · rwa [← List.flatMap_def, ← List.flatMap_def]
  · rw [hwidths, hwidths, hcount]

/-- Different lists of blocks are written differently, unless they cut the same
symbols at different places. -/
lemma ne_imp_flatten_ne_iff {l l' : List (List α)} :
    (l ≠ l' → l.flatten ≠ l'.flatten) ↔
      l.flatten ≠ l'.flatten ∨ l.map List.length = l'.map List.length := by
  rw [Ne, List.eq_iff_flatten_eq]
  tauto

/-- If every block is that of a value, a list of symbols is made of blocks
exactly if its length is a multiple of the width. -/
theorem exists_flatMap_eq_iff (hlen : ∀ b, (f b).length = w)
    (honto : ∀ x : List α, x.length = w → ∃ b, f b = x) {x : List α} :
    (∃ l : List β, l.flatMap f = x) ↔ w ∣ x.length := by
  constructor
  · rintro ⟨l, rfl⟩
    exact ⟨l.length, length_flatMap_of_width hlen l⟩
  · rintro ⟨n, hn⟩
    induction n generalizing x with
    | zero => exact ⟨[], (List.length_eq_zero_iff.mp hn).symm⟩
    | succ n ih =>
        rw [Nat.mul_succ] at hn
        obtain ⟨b, hb⟩ := honto (x.take w) (by rw [List.length_take]; omega)
        obtain ⟨l, hl⟩ := ih (x := x.drop w) (by rw [List.length_drop]; omega)
        exact ⟨b :: l, by rw [List.flatMap_cons, hb, hl, List.take_append_drop]⟩

end StablecoinSystem
