import Autocom.Conv

/-! # One pair of characters in `toBinary`

The loop keeps `val` from pair to pair and does not look at what `sscanf`
returns. A pair that is no number is the byte of the last number before it, and
where there is none, of what the stack held. -/
namespace Autocom.HexPairs
open Autocom Conv

/-- The two characters at index `k`. -/
def pair (s : Bytes) (k : Nat) : Bytes := (s.drop (2 * k)).take 2

/-- The value of the last pair before index `k` that `sscanf` converts. -/
def lastConverted (s : Bytes) (k : Nat) : Option (BitVec 32) :=
  ((List.range k).filterMap fun j => sscanf02X (pair s j)).getLast?

/-- Strings of one even length with the same two characters at index `k`. -/
structure SamePair (s t : CString) (k : Nat) : Prop where
  length : s.bytes.length = t.bytes.length
  even : Even s.bytes.length
  index : k < s.bytes.length / 2
  pair : pair s.bytes k = HexPairs.pair t.bytes k

/-- Byte `k` is the same in both, whatever each run finds in `val`. -/
def SameByte (s t : CString) (k : Nat) : Prop :=
  ∀ v w, (toBinary v s)[k]? = (toBinary w t)[k]?

/-- The pair at `k` is a number. -/
def Converts (s : CString) (k : Nat) : Prop := (sscanf02X (pair s.bytes k)).isSome

instance (s : CString) (k : Nat) : Decidable (Converts s k) :=
  inferInstanceAs (Decidable (_ = true))

/-- Both strings have a number before `k`, and its low byte is the same. -/
def SameBefore (s t : CString) (k : Nat) : Prop :=
  ∃ a b, lastConverted s.bytes k = some a ∧ lastConverted t.bytes k = some b ∧
    a.setWidth 8 = b.setWidth 8

/-! ## Byte `k` -/

theorem pair_succ (a b : Byte) (rest : Bytes) (k : Nat) :
    pair (a :: b :: rest) (k + 1) = pair rest k := by
  rw [pair, show 2 * (k + 1) = 2 * k + 2 by omega, List.drop_succ_cons, List.drop_succ_cons]
  rfl

/-- One pair is done: a number takes the place of what `val` held. -/
theorem lastConverted_succ (a b : Byte) (rest : Bytes) (k : Nat) (val : BitVec 32) :
    (lastConverted (a :: b :: rest) (k + 1)).getD val =
      (lastConverted rest k).getD ((sscanf02X [a, b]).getD val) := by
  have hzero : pair (a :: b :: rest) 0 = [a, b] := rfl
  have htail : ((List.range k).map Nat.succ).filterMap
        (fun j => sscanf02X (pair (a :: b :: rest) j)) =
      (List.range k).filterMap fun j => sscanf02X (pair rest j) := by
    rw [List.filterMap_map]
    exact List.filterMap_congr fun j _ => congrArg sscanf02X (pair_succ a b rest j)
  rw [lastConverted, lastConverted, List.range_succ_eq_map, List.filterMap_cons, hzero, htail]
  cases sscanf02X [a, b] with
  | none => rfl
  | some v => rw [List.getLast?_cons]; rfl

/-- **Byte `k`** is its own pair, or else the last number before it, or else
what `val` held. -/
theorem toBinaryLoop_getElem (val : BitVec 32) (s : Bytes) (k : Nat) (hk : 2 * k + 1 < s.length) :
    (toBinaryLoop val s)[k]? =
      some (((sscanf02X (pair s k)).getD ((lastConverted s k).getD val)).setWidth 8) := by
  induction k generalizing val s with
  | zero =>
    match s, hk with
    | a :: b :: rest, _ => rfl
  | succ k ih =>
    match s, hk with
    | a :: b :: rest, hk =>
      simp only [List.length_cons] at hk
      rw [toBinaryLoop, List.getElem?_cons_succ, ih _ rest (by omega), pair_succ,
        lastConverted_succ]

/-- A pair that is no number repeats the byte before it. -/
theorem toBinary_repeats (val : BitVec 32) (s : CString) (k : Nat)
    (hk : 2 * (k + 1) + 1 < s.bytes.length) (h : ¬ Converts s (k + 1)) :
    (toBinary val s)[k + 1]? = (toBinary val s)[k]? := by
  have hnone : sscanf02X (pair s.bytes (k + 1)) = none := by simpa [Converts] using h
  rw [toBinary, toBinaryLoop_getElem val _ _ hk, toBinaryLoop_getElem val _ k (by omega), hnone,
    Option.getD_none]
  congr 2
  rw [lastConverted, lastConverted, List.range_succ, List.filterMap_append]
  cases hlast : sscanf02X (pair s.bytes k) with
  | none => simp [hlast]
  | some v => simp [hlast]

/-- A first pair that is no number is the low byte of what `val` held. -/
theorem toBinary_stack (val : BitVec 32) (s : CString) (hs : 1 < s.bytes.length)
    (h : ¬ Converts s 0) : (toBinary val s)[0]? = some (val.setWidth 8) := by
  have hnone : sscanf02X (pair s.bytes 0) = none := by simpa [Converts] using h
  rw [toBinary, toBinaryLoop_getElem val _ 0 (by omega), hnone]
  rfl

/-! ## When the byte is the pair's own -/

theorem SamePair.lt {s t : CString} {k : Nat} (h : SamePair s t k) :
    2 * k + 1 < s.bytes.length ∧ 2 * k + 1 < t.bytes.length := by
  have hindex := h.index
  have hlength := h.length
  omega

/-- A number is the same byte in every string. -/
theorem sameByte_of_converts {s t : CString} {k : Nat} (h : SamePair s t k)
    (hconv : Converts s k) : SameByte s t k := by
  obtain ⟨hs, ht⟩ := h.lt
  obtain ⟨v, hv⟩ := Option.isSome_iff_exists.mp hconv
  intro val val'
  rw [toBinary, toBinary, toBinaryLoop_getElem val _ k hs, toBinaryLoop_getElem val' _ k ht,
    ← h.pair, hv]
  rfl

/-- **A pair stands for one byte exactly when it is a number.** -/
theorem converts_iff_everywhere (p : CString) (hp : p.bytes.length = 2) :
    Converts p 0 ↔
      ∀ s t k, SamePair s t k → pair s.bytes k = p.bytes → SameByte s t k := by
  have hself : pair p.bytes 0 = p.bytes := by simp [pair, ← hp]
  constructor
  · intro hconv s t k h hpair
    refine sameByte_of_converts h ?_
    rwa [Converts, hself, ← hpair] at hconv
  · intro h
    by_contra hnot
    have hsame := h p p 0 ⟨rfl, by rw [hp]; decide, by omega, rfl⟩ hself 0 1
    rw [toBinary_stack 0 p (by omega) hnot, toBinary_stack 1 p (by omega) hnot] at hsame
    exact absurd hsame (by decide)

/-- Two readings agree whatever the stack held only when neither is of the
stack. -/
theorem getD_same_iff (a b : Option (BitVec 32)) :
    (∀ v w : BitVec 32, (a.getD v).setWidth 8 = (b.getD w).setWidth 8) ↔
      ∃ x y, a = some x ∧ b = some y ∧ x.setWidth 8 = y.setWidth 8 := by
  constructor
  · intro h
    have hne : (0 : BitVec 32).setWidth 8 ≠ (1 : BitVec 32).setWidth 8 := by decide
    cases a with
    | none => exact absurd ((h 0 0).trans (h 1 0).symm) hne
    | some x =>
      cases b with
      | none => exact absurd ((h 0 0).symm.trans (h 0 1)) hne
      | some y => exact ⟨x, y, rfl, rfl, h 0 0⟩
  · intro ⟨x, y, hx, hy, hxy⟩ v w
    rw [hx, hy]
    exact hxy

/-- **Byte `k` depends on pair `k` alone** for a pair that is a number, and else
only where the same byte stands before it in both strings. -/
theorem sameByte_iff (s t : CString) (k : Nat) (h : SamePair s t k) :
    SameByte s t k ↔ Converts s k ∨ SameBefore s t k := by
  by_cases hconv : Converts s k
  · exact iff_of_true (sameByte_of_converts h hconv) (.inl hconv)
  · obtain ⟨hs, ht⟩ := h.lt
    have hnone : sscanf02X (pair s.bytes k) = none := by simpa [Converts] using hconv
    simp only [SameByte, toBinary, toBinaryLoop_getElem _ _ k hs, toBinaryLoop_getElem _ _ k ht,
      Option.some.injEq, ← h.pair, hnone, Option.getD_none, hconv, false_or]
    exact getD_same_iff (lastConverted s.bytes k) (lastConverted t.bytes k)

/-- `41ZZ` and `42ZZ`. -/
def key41 : CString := c_str [0x34, 0x31, 0x5a, 0x5a]
def key42 : CString := c_str [0x34, 0x32, 0x5a, 0x5a]

/-- `ZZ` is sent as a copy of the key before it. -/
theorem malformed_pair_copied : SamePair key41 key42 1 ∧ ¬ SameByte key41 key42 1 ∧
    toBinary 0 key41 = [0x41, 0x41] ∧ toBinary 0 key42 = [0x42, 0x42] := by
  refine ⟨⟨rfl, even_two_mul 2, by decide, rfl⟩, fun h => ?_, rfl, rfl⟩
  exact absurd (h 0 0) (by decide)

def key4142 : CString := c_str [0x34, 0x31, 0x34, 0x32]
def key4342 : CString := c_str [0x34, 0x33, 0x34, 0x32]

/-- The pair `42` is a number. -/
theorem sameByte_iff_42 : SameByte key4142 key4342 1 ↔
    Converts key4142 1 ∨ SameBefore key4142 key4342 1 :=
  sameByte_iff key4142 key4342 1 ⟨rfl, even_two_mul 2, by decide, rfl⟩

end Autocom.HexPairs
