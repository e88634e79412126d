import Mathlib.Data.List.Infix

/-! # Searching a stream through a window

A search that keeps only the tail of what it has read finds the same
occurrences as one that keeps everything, as long as nothing was found before
the cut and the tail is as long as the pattern. -/
namespace Autocom.Lib.Window

variable {α : Type*}

/-- `w` may stand for `full` in the search for patterns of length at most `n`:
it is `full`, or a tail of it of at least that length. -/
structure Covers (n : Nat) (w full : List α) : Prop where
  tail : w <:+ full
  long : w = full ∨ n ≤ w.length

theorem Covers.refl (n : Nat) (full : List α) : Covers n full full :=
  ⟨List.suffix_rfl, .inl rfl⟩

/-- Both sides read the same new part. -/
theorem Covers.append {n : Nat} {w full : List α} (h : Covers n w full) (c : List α) :
    Covers n (w ++ c) (full ++ c) := by
  refine ⟨List.suffix_append_self_iff.mpr h.tail, ?_⟩
  rcases h.long with rfl | hl
  · exact .inl rfl
  · exact .inr (by rw [List.length_append]; omega)

/-- Cutting the window down to `m ≥ n` elements. -/
theorem Covers.cut {n m : Nat} {w full : List α} (h : Covers n w full) (hm : n ≤ m)
    (hw : m ≤ w.length) : Covers n (w.drop (w.length - m)) full := by
  refine ⟨(List.drop_suffix _ w).trans h.tail, .inr ?_⟩
  rw [List.length_drop]; omega

/-- **The window loses no occurrence.** A pattern that is not in `full` occurs
after the next part is read exactly when it occurs in the window. -/
theorem Covers.infix_iff {n : Nat} {p w full c : List α} (h : Covers n w full)
    (hp : p.length ≤ n) (hno : ¬ p <:+: full) : p <:+: full ++ c ↔ p <:+: w ++ c := by
  constructor
  · intro hin
    rcases List.infix_append_iff.mp hin with hf | hc | ⟨l, r, rfl, hl, hr⟩
    · exact absurd hf hno
    · exact List.infix_append_of_infix_right hc
    · rcases h.long with rfl | hlong
      · exact List.infix_append_iff.mpr (.inr (.inr ⟨l, r, rfl, hl, hr⟩))
      · -- the part before the seam is shorter than the pattern, so it lies in the window
        have hlw : l <:+ w := List.suffix_of_suffix_length_le hl h.tail (by simp at hp; omega)
        exact List.infix_append_iff.mpr (.inr (.inr ⟨l, r, rfl, hlw, hr⟩))
  · intro hin
    exact hin.trans (List.suffix_append_self_iff.mpr h.tail).isInfix

end Autocom.Lib.Window
