import Mathlib.Data.BitVec

/-! # Words in which each bit is a line of its own

A line is switched by setting or clearing its bit. What is asked of such a
change is that the bit gets the value and no other bit moves. -/
namespace Autocom.Lib.Bits

variable {n i : Nat} {b : Bool} {old new word : BitVec n}

/-- Both words have the same bits except at `i`. -/
def AgreeOff (i : Nat) (old new : BitVec n) : Prop :=
  ∀ j, j ≠ i → new.getLsbD j = old.getLsbD j

/-- `new` is `old` with bit `i` set to `b`. -/
structure Switched (i : Nat) (b : Bool) (old new : BitVec n) : Prop where
  line : new.getLsbD i = b
  others : AgreeOff i old new

/-- `w |= 1 << i` and `w &= ~(1 << i)`. -/
def switch (i : Nat) (b : Bool) (w : BitVec n) : BitVec n :=
  if b then w ||| BitVec.twoPow n i else w &&& ~~~(BitVec.twoPow n i)

theorem AgreeOff.refl (i : Nat) (w : BitVec n) : AgreeOff i w w := fun _ _ => rfl

theorem AgreeOff.trans {mid : BitVec n} (h : AgreeOff i old mid) (h' : AgreeOff i mid new) :
    AgreeOff i old new :=
  fun j hj => (h' j hj).trans (h j hj)

theorem getLsbD_switch (hi : i < n) (b : Bool) (w : BitVec n) (j : Nat) :
    (switch i b w).getLsbD j = if j = i then b else w.getLsbD j := by
  unfold switch
  by_cases hj : j = i
  · subst hj
    cases b <;> simp [hi]
  · by_cases hlt : j < n
    · cases b <;> simp [hj, hlt]
    · cases b <;> simp [hj, BitVec.getLsbD_of_ge _ _ (Nat.le_of_not_lt hlt)]

theorem switched_switch (hi : i < n) (b : Bool) (w : BitVec n) : Switched i b w (switch i b w) := by
  refine ⟨?_, fun j hj => ?_⟩
  · rw [getLsbD_switch hi, if_pos rfl]
  · rw [getLsbD_switch hi, if_neg hj]

/-- **Switching a line of another word** gives one that is unchanged or switched
exactly when the two words agree off the line. -/
theorem switch_other_iff (hi : i < n) :
    (switch i b word = old ∨ Switched i b old (switch i b word)) ↔ AgreeOff i old word := by
  have hswitch : AgreeOff i word (switch i b word) := (switched_switch hi b word).others
  constructor
  · rintro (heq | h)
    · rw [heq] at hswitch
      exact fun j hj => (hswitch j hj).symm
    · exact fun j hj => (hswitch j hj).symm.trans (h.others j hj)
  · intro h
    exact .inr ⟨(switched_switch hi b word).line, h.trans hswitch⟩

end Autocom.Lib.Bits
