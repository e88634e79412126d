import Autocom.Device
import Autocom.HexText
import Autocom.SerialPort

/-! # Copies into fixed buffers

`Device::write(Sqrat::Array)` and `Device::binwaitt` copy an array into
`ptr[256]`, `arr2str` into `ptr[4096]`, the constructor of `SerialComm` copies
its credentials into `_credentials[128]`. A copy is the list of its writes, each
an index and a byte. -/
namespace Autocom.Overrun
open Autocom

/-! ## The copies -/

/-- Every write is inside a buffer of `n` elements. -/
def InBounds (n : Nat) (writes : List (Nat × Byte)) : Prop := ∀ w ∈ writes, w.1 < n

instance (n : Nat) (writes : List (Nat × Byte)) : Decidable (InBounds n writes) :=
  inferInstanceAs (Decidable (∀ w ∈ writes, w.1 < n))

section arrays

-- `pop` is `Var<const uint8_t&>` on an element: `none` raises an error
variable {α : Type} (pop : α → Option Byte)

/-- `int sz = a.GetSize()`: the 64-bit size is cut to an `int`. -/
def GetSize (a : List α) : Int := (BitVec.ofNat 32 a.length).toInt

/-- The loop of `GetArray`: `i` is the key that `sq_next` gives. -/
def GetArrayLoop (size : Int) : Nat → List α → List (Nat × Byte)
  | _, [] => []
  | i, x :: xs =>
    if i ≥ size then []
    else match pop x with
      | none => []
      | some b => (i, b) :: GetArrayLoop size (i + 1) xs

/-- `GetArray(array, size)`. -/
def GetArray (a : List α) (size : Int) : List (Nat × Byte) :=
  if size > a.length then [] else GetArrayLoop pop size 0 a

/-- `Device::write(Sqrat::Array)`, into `ptr[256]`. -/
def write (a : List α) : List (Nat × Byte) := GetArray pop a (GetSize a)

/-- `Device::binwaitt`, into `ptr[256]`. -/
def binwaitt (a : List α) : List (Nat × Byte) := GetArray pop a (GetSize a)

/-- `arr2str`, into `ptr[4096]`. -/
def arr2str (a : List α) : List (Nat × Byte) := GetArray pop a (GetSize a)

/-- How many of the first `(int)len` elements come before one that is no number. -/
def leading (a : List α) : Nat :=
  ((a.take (GetSize a).toNat).takeWhile fun x => (pop x).isSome).length

end arrays

/-- `strcpy`: the bytes of the string and its terminator. -/
def strcpyLoop : Nat → Bytes → List (Nat × Byte)
  | i, [] => [(i, 0)]
  | i, c :: s => (i, c) :: strcpyLoop (i + 1) s

/-- `SerialComm(cred)`, into `_credentials[128]`. -/
def credentials (cred : CString) : List (Nat × Byte) := strcpyLoop 0 cred.bytes

/-! ## Where they write -/

section arrays

variable {α : Type} {pop : α → Option Byte}

theorem GetSize_le (a : List α) : GetSize a ≤ a.length := by
  rw [GetSize, BitVec.toInt_eq_toNat_cond, BitVec.toNat_ofNat]
  split <;> omega

/-- Below `2^31` elements the `int` is the length. -/
theorem GetSize_eq {a : List α} (h : a.length < 2 ^ 31) : GetSize a = a.length := by
  rw [GetSize, BitVec.toInt_eq_toNat_cond, BitVec.toNat_ofNat]
  split <;> omega

theorem GetArrayLoop_indices (size : Int) (i : Nat) (a : List α) :
    (GetArrayLoop pop size i a).map Prod.fst =
      List.range' i ((a.take (size - i).toNat).takeWhile fun x => (pop x).isSome).length := by
  induction a generalizing i with
  | nil => simp [GetArrayLoop]
  | cons x xs ih =>
    rw [GetArrayLoop]
    split
    · next hstop =>
      rw [show (size - i).toNat = 0 by omega]
      rfl
    · next hgo =>
      rw [show (size - i).toNat = (size - (i + 1 : Nat)).toNat + 1 by omega, List.take_succ_cons]
      cases hpop : pop x with
      | none => simp [hpop]
      | some b => simp [hpop, ih, List.range'_succ]

/-- `GetArray` writes at `0`, `1`, ... up to the first element it cannot convert. -/
theorem GetArray_indices (a : List α) :
    (GetArray pop a (GetSize a)).map Prod.fst = List.range (leading pop a) := by
  have hsize := GetSize_le a
  rw [GetArray, if_neg (by omega), GetArrayLoop_indices, List.range_eq_range', leading,
    Int.natCast_zero, Int.sub_zero]

end arrays

theorem strcpyLoop_indices (i : Nat) (s : Bytes) :
    (strcpyLoop i s).map Prod.fst = List.range' i (s.length + 1) := by
  induction s generalizing i with
  | nil => rfl
  | cons c s ih => rw [strcpyLoop, List.map_cons, ih, List.length_cons, ← List.range'_succ]

theorem inBounds_range_iff {n k : Nat} {writes : List (Nat × Byte)}
    (h : writes.map Prod.fst = List.range k) : InBounds n writes ↔ k ≤ n := by
  have hall : InBounds n writes ↔ ∀ i ∈ writes.map Prod.fst, i < n := by
    simp [InBounds]
  rw [hall, h]
  constructor
  · intro hlt
    by_contra hk
    exact absurd (hlt n (List.mem_range.mpr (by omega))) (Nat.lt_irrefl n)
  · intro hk i hi
    exact Nat.lt_of_lt_of_le (List.mem_range.mp hi) hk

theorem GetArray_inBounds_iff {α : Type} {pop : α → Option Byte} (n : Nat) (a : List α) :
    InBounds n (GetArray pop a (GetSize a)) ↔ leading pop a ≤ n :=
  inBounds_range_iff (GetArray_indices a)

theorem credentials_inBounds_iff (n : Nat) (cred : CString) :
    InBounds n (credentials cred) ↔ cred.bytes.length < n := by
  have hindices : (credentials cred).map Prod.fst = List.range (cred.bytes.length + 1) := by
    rw [credentials, strcpyLoop_indices, List.range_eq_range']
  rw [inBounds_range_iff hindices, Nat.succ_le_iff]

/-- **A copy stays in its buffer** when what the script gives is short enough:
no copy looks at the size of the buffer. -/
theorem inBounds_iff {α : Type} (pop : α → Option Byte) (a : List α) (cred : CString) :
    (InBounds 256 (write pop a) ↔ leading pop a ≤ 256) ∧
    (InBounds 256 (binwaitt pop a) ↔ leading pop a ≤ 256) ∧
    (InBounds 4096 (arr2str pop a) ↔ leading pop a ≤ 4096) ∧
    (InBounds 128 (credentials cred) ↔ cred.bytes.length < 128) :=
  ⟨GetArray_inBounds_iff 256 a, GetArray_inBounds_iff 256 a, GetArray_inBounds_iff 4096 a,
    credentials_inBounds_iff 128 cred⟩

theorem leading_ofBytes (bs : Bytes) (h : bs.length < 2 ^ 31) : leading some bs = bs.length := by
  have hsize := GetSize_eq h
  have hall : bs.takeWhile (fun x => (some x).isSome) = bs :=
    List.takeWhile_eq_self_iff.mpr fun _ _ => rfl
  rw [leading, hsize, Int.toNat_natCast, List.take_length, hall]

/-- 257 bytes and 128 characters. -/
theorem one_past_the_end :
    ¬ InBounds 256 (write some (List.replicate 257 (0 : Byte))) ∧
    ¬ InBounds 256 (binwaitt some (List.replicate 257 (0 : Byte))) ∧
    ¬ InBounds 4096 (arr2str some (List.replicate 4097 (0 : Byte))) ∧
    ¬ InBounds 128 (credentials ⟨List.replicate 128 0x61, by decide⟩) := by
  have hlong : ∀ n, n < 2 ^ 31 → leading some (List.replicate n (0 : Byte)) = n := by
    intro n hn
    rw [leading_ofBytes _ (by rwa [List.length_replicate]), List.length_replicate]
  refine ⟨?_, ?_, ?_, ?_⟩
  · rw [write, GetArray_inBounds_iff, hlong 257 (by decide)]; decide
  · rw [binwaitt, GetArray_inBounds_iff, hlong 257 (by decide)]; decide
  · rw [arr2str, GetArray_inBounds_iff, hlong 4097 (by decide)]; decide
  · rw [credentials_inBounds_iff, List.length_replicate]; decide

/-! ## The models of the callers -/

/-- `Call.writeArray` and `Call.binwaitt` go on exactly when the copy stays in `ptr`. -/
theorem fits_iff (a : Bytes) (h : a.length < 2 ^ 31) :
    fits a = true ↔ InBounds 256 (GetArray some a (GetSize a)) := by
  rw [GetArray_inBounds_iff, leading_ofBytes a h, fits, decide_eq_true_iff]

/-- `SerialComm` is constructed exactly when the copy stays in `_credentials`. -/
theorem init_isSome_iff (garbage : Int) (cred : CString) :
    (SerialComm.init garbage cred).isSome = true ↔
      InBounds SerialComm.CREDENTIALS (credentials cred) := by
  rw [credentials_inBounds_iff, SerialComm.init]
  split <;> simp [*]

/-- What the scripts of `payutil.sss` read out of an array is what is copied. -/
theorem GetArrayLoop_written {a : PayUtil.SQArray} {bs : Bytes} (size : Int) (i : Nat)
    (hsize : i + a.length ≤ size) (h : PayUtil.GetArray a = some bs) :
    (GetArrayLoop PayUtil.popAsInt size i a).map Prod.snd = bs := by
  induction a generalizing i bs with
  | nil => cases h; rfl
  | cons x xs ih =>
    rw [List.length_cons] at hsize
    rw [PayUtil.GetArray, List.mapM_cons] at h
    obtain ⟨b, hb, h⟩ := Option.bind_eq_some_iff.mp h
    obtain ⟨bs', hbs, h⟩ := Option.bind_eq_some_iff.mp h
    cases h
    have htail := ih (i + 1) (by push_cast at hsize ⊢; omega) hbs
    rw [GetArrayLoop, if_neg (by push_cast at hsize; omega), hb]
    simp [htail]

theorem GetArray_written {a : PayUtil.SQArray} {bs : Bytes} (hlen : a.length < 2 ^ 31)
    (h : PayUtil.GetArray a = some bs) :
    (GetArray PayUtil.popAsInt a (GetSize a)).map Prod.snd = bs := by
  rw [GetSize_eq hlen, GetArray, if_neg (lt_irrefl _)]
  exact GetArrayLoop_written a.length 0 (by simp) h

end Autocom.Overrun
