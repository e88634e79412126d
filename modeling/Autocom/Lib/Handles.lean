import Mathlib.Data.List.Basic

/-! # Handles and their owner

A party acquires handles from a system and gives them back. What it holds, and
whether it gave back nothing but its own, is read off the events in order. -/
namespace Autocom.Lib.Handles

variable {η : Type*} [DecidableEq η]

inductive Event (η : Type*)
  | acquire (h : η)
  | release (h : η)

/-- The handles held after the events by an owner of `own`. -/
def held : List η → List (Event η) → List η
  | own, [] => own
  | own, .acquire h :: es => held (h :: own) es
  | own, .release h :: es => held (own.erase h) es

/-- Each handle that is released was held at that time. -/
def Owned : List η → List (Event η) → Prop
  | _, [] => True
  | own, .acquire h :: es => Owned (h :: own) es
  | own, .release h :: es => h ∈ own ∧ Owned (own.erase h) es

instance decidableOwned : (own : List η) → (es : List (Event η)) → Decidable (Owned own es)
  | _, [] => .isTrue trivial
  | own, .acquire h :: es => decidableOwned (h :: own) es
  | own, .release h :: es =>
    @instDecidableAnd (h ∈ own) (Owned (own.erase h) es) _ (decidableOwned (own.erase h) es)

theorem owned_append (own : List η) (es fs : List (Event η)) :
    Owned own (es ++ fs) ↔ Owned own es ∧ Owned (held own es) fs := by
  induction es generalizing own with
  | nil => simp [Owned, held]
  | cons e es ih =>
    cases e with
    | acquire h => exact ih _
    | release h =>
      change h ∈ own ∧ Owned (own.erase h) (es ++ fs) ↔ _
      rw [ih, ← and_assoc]
      rfl

/-- Who holds nothing can release nothing. -/
theorem not_owned_nil (h : η) (es : List (Event η)) : ¬ Owned [] (.release h :: es) :=
  fun hown => List.not_mem_nil hown.1

end Autocom.Lib.Handles
