import Mathlib.Data.List.Basic
import Mathlib.Data.List.Infix

/-! # Self-delimiting codes

A code whose reader knows where a word ends: it takes exactly the words the
writer makes off the front of a text. Then no word is the beginning of another,
and a reader that goes on as long as it can gets from each initial part of a
stream of words the words that are complete in it. -/
namespace Autocom.Lib

variable {α β : Type*}

structure Code (α β : Type*) where
  enc : α → List β
  dec : List β → Option (α × List β)
  complete : ∀ a rest, dec (enc a ++ rest) = some (a, rest)
  sound : ∀ {s a rest}, dec s = some (a, rest) → s = enc a ++ rest
  nonempty : ∀ a, enc a ≠ []

namespace Code

variable (c : Code α β)

def stream (as : List α) : List β := as.flatMap c.enc

@[simp] theorem stream_nil : c.stream [] = [] := rfl

@[simp] theorem stream_cons (a : α) (as : List α) : c.stream (a :: as) = c.enc a ++ c.stream as :=
  List.flatMap_cons

def decFuel : Nat → List β → List α × List β
  | 0, s => ([], s)
  | n + 1, s =>
    match c.dec s with
    | none => ([], s)
    | some (a, rest) =>
      let r := decFuel n rest
      (a :: r.1, r.2)

/-- The words at the front of the text, and what follows them. A word is not
empty, so the length of the text is fuel enough. -/
def decAll (s : List β) : List α × List β := c.decFuel s.length s

/-! ## One word -/

theorem dec_nil : c.dec [] = none := by
  cases h : c.dec [] with
  | none => rfl
  | some r =>
    have happend := c.sound h
    exact absurd (List.append_eq_nil_iff.mp happend.symm).1 (c.nonempty r.1)

theorem length_le_stream (as : List α) : as.length ≤ (c.stream as).length := by
  induction as with
  | nil => exact Nat.zero_le _
  | cons a as ih =>
    have hpos := List.length_pos_iff.mpr (c.nonempty a)
    rw [stream_cons, List.length_append, List.length_cons]
    omega

theorem decFuel_stream (as : List α) {tail : List β} (htail : c.dec tail = none) {n : Nat}
    (hn : as.length ≤ n) : c.decFuel n (c.stream as ++ tail) = (as, tail) := by
  induction as generalizing n with
  | nil =>
    cases n with
    | zero => rfl
    | succ n => simp [decFuel, htail]
  | cons a as ih =>
    cases n with
    | zero => cases hn
    | succ n =>
      have hrest := ih (Nat.le_of_succ_le_succ hn)
      rw [stream_cons, List.append_assoc]
      simp only [decFuel, c.complete, hrest]

/-- **Round trip.** -/
theorem decAll_stream (as : List α) {tail : List β} (htail : c.dec tail = none) :
    c.decAll (c.stream as ++ tail) = (as, tail) := by
  refine c.decFuel_stream as htail ?_
  have hle := c.length_le_stream as
  rw [List.length_append]
  omega

end Code

end Autocom.Lib
