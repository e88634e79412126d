import Mathlib.Data.BitVec
import Mathlib.Data.List.Basic

/-! # The xor of a list of words

A longitudinal redundancy check is the xor of the message. The facts that make
it a check: the sum of a message followed by its own sum is zero, it commutes
with every map that respects xor (a truncation, a zero extension), and changing
one word changes it. -/
namespace Autocom.Lib

variable {w v : Nat}

def xorSum (xs : List (BitVec w)) : BitVec w := xs.foldr (· ^^^ ·) 0

@[simp] theorem xorSum_nil : xorSum ([] : List (BitVec w)) = 0 := rfl

@[simp] theorem xorSum_cons (x : BitVec w) (xs : List (BitVec w)) :
    xorSum (x :: xs) = x ^^^ xorSum xs := rfl

@[simp] theorem xorSum_append (xs ys : List (BitVec w)) :
    xorSum (xs ++ ys) = xorSum xs ^^^ xorSum ys := by
  induction xs with
  | nil => simp
  | cons x xs ih => simp [ih, BitVec.xor_assoc]

/-- Accumulating from the left gives the same sum. -/
theorem foldl_xor (acc : BitVec w) (xs : List (BitVec w)) :
    xs.foldl (· ^^^ ·) acc = acc ^^^ xorSum xs := by
  induction xs generalizing acc with
  | nil => simp
  | cons x xs ih => simp [ih, BitVec.xor_assoc]

/-- A message followed by its sum sums to zero. -/
theorem xorSum_check (xs : List (BitVec w)) : xorSum (xs ++ [xorSum xs]) = 0 := by simp

/-- A map that respects xor may be applied before or after summing. -/
theorem xorSum_map {f : BitVec w → BitVec v} (h0 : f 0 = 0)
    (hf : ∀ a b, f (a ^^^ b) = f a ^^^ f b) (xs : List (BitVec w)) :
    xorSum (xs.map f) = f (xorSum xs) := by
  induction xs with
  | nil => exact h0.symm
  | cons x xs ih => simp [ih, hf]

/-- Replacing one word moves the sum by the difference of the two words. -/
theorem xorSum_set {xs : List (BitVec w)} {k : Nat} (hk : k < xs.length) (y : BitVec w) :
    xorSum (xs.set k y) = xorSum xs ^^^ (xs[k] ^^^ y) := by
  induction xs generalizing k with
  | nil => cases hk
  | cons x xs ih =>
    cases k with
    | zero =>
      simp only [List.set_cons_zero, xorSum_cons, List.getElem_cons_zero]
      rw [BitVec.xor_comm x (xorSum xs), BitVec.xor_assoc, ← BitVec.xor_assoc x x,
        BitVec.xor_self, BitVec.zero_xor, BitVec.xor_comm]
    | succ k =>
      have hk' : k < xs.length := by simpa using hk
      simp [ih hk', BitVec.xor_assoc]

end Autocom.Lib
