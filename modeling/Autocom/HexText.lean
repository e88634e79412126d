import Autocom.Conv
import Autocom.PayUtil

/-! # Hex text and arrays

`toString` and `toBinary` between bytes and text, `arr2str` and `str2arr`
between script arrays and text. The first two undo each other. `str2arr` inserts
at string offsets into an array that already has its length, so every value it
writes has a null behind it, and `arr2str` rejects a null. -/
namespace Autocom.Conv
open Autocom Autocom.PayUtil

/-! ## Digits -/

def isxdigit (c : Byte) : Bool := (hexDigit c).isSome

def toupper (c : Byte) : Byte := if 0x61 ≤ c ∧ c ≤ 0x7a then c - 0x20 else c

def upper (s : Bytes) : Bytes := s.map toupper

/-- A character that `hexDigit` reads is no blank and no sign, and in upper case
it is the digit that `%X` writes. -/
structure Digit (c : Byte) (d : Nat) : Prop where
  lt : d < 16
  blank : isSpace c = false
  plus : c ≠ 0x2b
  minus : c ≠ 0x2d
  upper : toupper c = upperDigit d

theorem digit_of_hexDigit {c : Byte} {d : Nat} (h : hexDigit c = some d) : Digit c d := by
  unfold hexDigit at h
  split at h
  · next hc =>
    obtain rfl := Option.some.inj h
    refine ⟨by bv_omega, ?_, by bv_omega, by bv_omega, ?_⟩
    · simp [isSpace]; bv_omega
    · rw [toupper, if_neg (by bv_omega), upperDigit, if_pos (by bv_omega)]; bv_omega
  · split at h
    · next hc =>
      obtain rfl := Option.some.inj h
      refine ⟨by bv_omega, ?_, by bv_omega, by bv_omega, ?_⟩
      · simp [isSpace]; bv_omega
      · rw [toupper, if_neg (by bv_omega), upperDigit, if_neg (by bv_omega)]; bv_omega
    · split at h
      · next hc =>
        obtain rfl := Option.some.inj h
        refine ⟨by bv_omega, ?_, by bv_omega, by bv_omega, ?_⟩
        · simp [isSpace]; bv_omega
        · rw [toupper, if_pos (by bv_omega), upperDigit, if_neg (by bv_omega)]; bv_omega
      · cases h

theorem hexDigit_upperDigit : ∀ d, d < 16 → hexDigit (upperDigit d) = some d := by decide

theorem duplet_eq (b : Byte) :
    duplet b = [upperDigit (b.toNat / 16), upperDigit (b.toNat % 16)] := by
  have hb := b.isLt
  rw [duplet, sprintfX, BitVec.toNat_setWidth, Nat.mod_eq_of_lt (by omega)]
  rcases Nat.eq_zero_or_pos b.toNat with hzero | hpos
  · rw [hzero]; rfl
  · rw [Nat.digits_def' (by decide) hpos]
    rcases Nat.eq_zero_or_pos (b.toNat / 16) with hhi | hhi
    · rw [hhi]; simp [upperDigit]
    · rw [Nat.digits_of_lt 16 _ hhi.ne' (by omega)]; simp

theorem sscanf02X_pair {a b : Byte} {hi lo : Nat} (ha : hexDigit a = some hi)
    (hb : hexDigit b = some lo) : sscanf02X [a, b] = some (BitVec.ofNat 32 (16 * hi + lo)) := by
  have hdigit := digit_of_hexDigit ha
  rw [sscanf02X, List.dropWhile_cons_of_neg (by simp [hdigit.blank]), hexItem,
    if_neg hdigit.plus, if_neg hdigit.minus, ha, hb]

/-! ## Bytes and text -/

@[simp] theorem toString_nil : toString [] = [] := rfl

theorem toString_cons (b : Byte) (bs : Bytes) : toString (b :: bs) = duplet b ++ toString bs := rfl

theorem toBinaryLoop_pair {a b : Byte} {hi lo : Nat} (ha : hexDigit a = some hi)
    (hb : hexDigit b = some lo) (val : BitVec 32) (s : Bytes) :
    toBinaryLoop val (a :: b :: s) = BitVec.ofNat 8 (16 * hi + lo) ::
      toBinaryLoop (BitVec.ofNat 32 (16 * hi + lo)) s := by
  have hhi := (digit_of_hexDigit ha).lt
  have hlo := (digit_of_hexDigit hb).lt
  rw [toBinaryLoop, sscanf02X_pair ha hb, Option.getD_some]
  congr 1
  bv_omega

/-- Reading what was written, whatever stands in `val`. -/
theorem toBinaryLoop_toString (val : BitVec 32) (bs : Bytes) :
    toBinaryLoop val (toString bs) = bs := by
  induction bs generalizing val with
  | nil => rfl
  | cons b bs ih =>
    have hb := b.isLt
    have hhi := hexDigit_upperDigit (b.toNat / 16) (by omega)
    have hlo := hexDigit_upperDigit (b.toNat % 16) (by omega)
    rw [toString_cons, duplet_eq, List.cons_append, List.cons_append, List.nil_append,
      toBinaryLoop_pair hhi hlo, ih, Nat.div_add_mod, BitVec.ofNat_toNat, BitVec.setWidth_eq]

theorem duplet_pair {a b : Byte} {hi lo : Nat} (ha : hexDigit a = some hi)
    (hb : hexDigit b = some lo) :
    duplet (BitVec.ofNat 8 (16 * hi + lo)) = [toupper a, toupper b] := by
  have hda := digit_of_hexDigit ha
  have hdb := digit_of_hexDigit hb
  have hlt := hda.lt
  have hlt' := hdb.lt
  have hvalue : (BitVec.ofNat 8 (16 * hi + lo)).toNat = 16 * hi + lo := by
    rw [BitVec.toNat_ofNat]; omega
  rw [duplet_eq, hvalue, show (16 * hi + lo) / 16 = hi by omega,
    show (16 * hi + lo) % 16 = lo by omega, hda.upper, hdb.upper]

/-- Writing what was read: the induction takes the characters two at a time, as
the loop does. -/
theorem toString_toBinaryLoop (val : BitVec 32) (s : Bytes) (hs : ∀ c ∈ s, isxdigit c = true)
    (heven : Even s.length) : toString (toBinaryLoop val s) = upper s := by
  induction val, s using toBinaryLoop.induct with
  | case1 val => rfl
  | case2 val a => simp at heven
  | case3 val a b rest val' ih =>
    obtain ⟨hi, ha⟩ := Option.isSome_iff_exists.mp (hs a (by simp))
    obtain ⟨lo, hb⟩ := Option.isSome_iff_exists.mp (hs b (by simp))
    have hval : val' = BitVec.ofNat 32 (16 * hi + lo) := by
      simp [val', sscanf02X_pair ha hb]
    have hrest : Even rest.length := by
      simpa [Nat.even_add_one, Nat.not_even_iff_odd] using heven
    have htail := ih (fun c hc => hs c (by simp [hc])) hrest
    rw [hval] at htail
    rw [toBinaryLoop_pair ha hb, toString_cons, duplet_pair ha hb, htail]
    rfl

theorem upperDigit_ne_zero : ∀ d, d < 16 → upperDigit d ≠ 0 := by decide

/-- What `toString` writes has no zero byte, so `c_str()` shows all of it. -/
theorem c_str_toString (bs : Bytes) : (c_str (toString bs)).bytes = toString bs := by
  refine cstr_eq_self ?_
  induction bs with
  | nil => simp
  | cons b bs ih =>
    have hb := b.isLt
    have hhi := upperDigit_ne_zero (b.toNat / 16) (by omega)
    have hlo := upperDigit_ne_zero (b.toNat % 16) (by omega)
    rw [toString_cons, duplet_eq]
    simp only [List.cons_append, List.nil_append, List.mem_cons, not_or]
    exact ⟨hhi.symm, hlo.symm, ih⟩

theorem toBinary_c_str (val : BitVec 32) (bs : Bytes) :
    toBinary val (c_str (toString bs)) = bs := by
  rw [toBinary, c_str_toString, toBinaryLoop_toString]

/-- **Text and bytes** undo each other. -/
theorem toBinary_toString :
    (∀ val bs, toBinary val (c_str (toString bs)) = bs) ∧
    (∀ val (s : CString), (∀ c ∈ s.bytes, isxdigit c = true) → Even s.bytes.length →
      toString (toBinary val s) = upper s.bytes) :=
  ⟨toBinary_c_str, fun val s hs heven => toString_toBinaryLoop val s.bytes hs heven⟩

def textAf : CString := ⟨[0x61, 0x46], by decide⟩

theorem toBinary_toString_af :
    toBinary 7 (c_str (toString [0, 0xff])) = [0, 0xff] ∧
    toString (toBinary 7 textAf) = [0x41, 0x46] :=
  ⟨toBinary_toString.1 7 [0, 0xff],
    toBinary_toString.2 7 textAf (by decide) (by decide)⟩

/-! ## Arrays and text -/

/-- `ptr[4096]` is on the stack: a longer array overruns it. An element that is
no number makes `GetArray` raise an error, which ends the call. -/
def arr2str (a : SQArray) : Option Bytes :=
  if a.length ≤ 4096 then (GetArray a).map toString else none

/-- `SQArray::Insert`. -/
def Insert (a : SQArray) (idx : Nat) (val : SQObject) : SQArray :=
  if a.length < idx then a else a.insertIdx idx val

/-- The loop of `str2arr`: `idx` is an offset into the string. -/
def str2arrLoop : BitVec 32 → Nat → Bytes → SQArray → SQArray
  | _, _, [], ra => ra
  | val, idx, [a], ra =>
    Insert ra idx (.integer (ofByte (((sscanf02X [a]).getD val).setWidth 8)))
  | val, idx, a :: b :: rest, ra =>
    let val := (sscanf02X [a, b]).getD val
    str2arrLoop val (idx + 2) rest (Insert ra idx (.integer (ofByte (val.setWidth 8))))

/-- `ra` starts with `sl/2` nulls. -/
def str2arr (val : BitVec 32) (str : CString) : SQArray :=
  str2arrLoop val 0 str.bytes (List.replicate (str.bytes.length / 2) .null)

/-- What the inserts leave: a null behind each value. -/
def spread (bs : Bytes) : SQArray := bs.flatMap fun b => [.integer (ofByte b), .null]

theorem length_spread (bs : Bytes) : (spread bs).length = 2 * bs.length := by
  induction bs with
  | nil => rfl
  | cons b bs ih =>
    rw [spread, List.flatMap_cons, List.length_append, ← spread, ih, List.length_cons]
    simp [Nat.mul_add, Nat.add_comm]

theorem spread_concat (bs : Bytes) (b : Byte) :
    spread (bs ++ [b]) = spread bs ++ [.integer (ofByte b), .null] := by
  simp [spread]

/-- An insert at the end of what is spread pushes the nulls that are left. -/
theorem Insert_spread (bs : Bytes) (o : SQObject) (ra : SQArray) :
    Insert (spread bs ++ ra) (2 * bs.length) o = spread bs ++ o :: ra := by
  have hlen := length_spread bs
  rw [Insert, if_neg (by rw [List.length_append]; omega), ← hlen]
  induction spread bs with
  | nil => rfl
  | cons x xs ih => rw [List.cons_append, List.length_cons, List.insertIdx_succ_cons, ih]; rfl

/-- The loop from the offset of the pairs that are done: `n` nulls are left for
`n` pairs. -/
theorem str2arrLoop_eq (val : BitVec 32) (s : Bytes) (heven : Even s.length) (bs : Bytes) :
    str2arrLoop val (2 * bs.length) s (spread bs ++ List.replicate (s.length / 2) .null) =
      spread (bs ++ toBinaryLoop val s) := by
  induction val, s using toBinaryLoop.induct generalizing bs with
  | case1 val => simp [str2arrLoop, toBinaryLoop]
  | case2 val a => simp at heven
  | case3 val a b rest val' ih =>
    have hrest : Even rest.length := by
      simpa [Nat.even_add_one, Nat.not_even_iff_odd] using heven
    have hnulls : (a :: b :: rest).length / 2 = rest.length / 2 + 1 := by
      simp only [List.length_cons]; omega
    have hpair : spread bs ++ .integer (ofByte (val'.setWidth 8)) ::
        List.replicate (rest.length / 2 + 1) .null =
        spread (bs ++ [val'.setWidth 8]) ++ List.replicate (rest.length / 2) .null := by
      rw [spread_concat, List.replicate_succ, List.append_assoc]; rfl
    rw [str2arrLoop, Insert_spread, hnulls, hpair,
      show 2 * bs.length + 2 = 2 * (bs ++ [val'.setWidth 8]).length by simp [Nat.mul_add],
      ih hrest, toBinaryLoop, List.append_assoc]
    rfl

/-- **`str2arr`** makes twice as many elements as there are pairs. -/
theorem str2arr_eq (val : BitVec 32) (str : CString) (heven : Even str.bytes.length) :
    str2arr val str = spread (toBinary val str) :=
  str2arrLoop_eq val str.bytes heven []

/-- `arr2str` refuses the nulls. -/
theorem arr2str_spread (bs : Bytes) (h : bs ≠ []) : arr2str (spread bs) = none := by
  have hnull : GetArray (spread bs) = none := by
    cases bs with
    | nil => exact absurd rfl h
    | cons b bs => rfl
  rw [arr2str, hnull]
  split <;> rfl

theorem GetArray_ofBytes (bs : Bytes) : GetArray (ofBytes bs) = some bs := by
  rw [ofBytes, GetArray_ofInts, List.map_map]
  simp [ofByte, Function.comp_def]

theorem toBinary_ne_nil (val : BitVec 32) {s : CString} (h : s.bytes ≠ []) :
    toBinary val s ≠ [] := by
  unfold toBinary
  cases hs : s.bytes with
  | nil => exact absurd hs h
  | cons a rest => cases rest <;> simp [toBinaryLoop]

theorem length_toString (bs : Bytes) : (toString bs).length = 2 * bs.length := by
  induction bs with
  | nil => rfl
  | cons b bs ih =>
    rw [toString_cons, duplet_eq, List.length_append, ih]
    simp [Nat.mul_add, Nat.add_comm]

/-- **Arrays and text** undo each other on nothing but the empty ones. -/
theorem str2arr_arr2str_iff (val : BitVec 32) :
    (∀ a : Bytes, a.length ≤ 4096 →
      ((arr2str (ofBytes a)).map (fun s => str2arr val (c_str s)) = some (ofBytes a) ↔ a = [])) ∧
    (∀ s : CString, (∀ c ∈ s.bytes, isxdigit c = true) → Even s.bytes.length →
      s.bytes.length ≤ 8192 →
      (arr2str (str2arr val s) = some (upper s.bytes) ↔ s.bytes = [])) := by
  refine ⟨fun a ha => ?_, fun s _ heven _ => ?_⟩
  · have htext : Even (c_str (toString a)).bytes.length := by
      rw [c_str_toString, length_toString]; exact even_two_mul _
    have hback : str2arr val (c_str (toString a)) = spread a := by
      rw [str2arr_eq val _ htext, toBinary_c_str]
    rw [arr2str, if_pos (by rwa [length_ofBytes]), GetArray_ofBytes, Option.map_some,
      Option.map_some, hback]
    constructor
    · intro h
      -- every value is there, with as many nulls
      have hlen := congrArg List.length (Option.some.inj h)
      rw [length_spread, length_ofBytes] at hlen
      exact List.eq_nil_of_length_eq_zero (by omega)
    · rintro rfl; rfl
  · rw [str2arr_eq val s heven]
    constructor
    · intro h
      by_contra hne
      rw [arr2str_spread _ (toBinary_ne_nil val hne)] at h
      cases h
    · intro h
      rw [toBinary, h]; rfl

def text01 : CString := ⟨[0x30, 0x31], by decide⟩

/-- `str2arr("01")` is `[1, null]`, and `arr2str` gives no text for it. -/
theorem null_behind_each_value :
    (arr2str (ofBytes [1])).map (fun s => str2arr 0 (c_str s)) = some [.integer 1, .null] ∧
    ofBytes [1] = [.integer 1] ∧
    arr2str (str2arr 0 text01) = none :=
  ⟨by decide, by decide, by decide⟩

theorem str2arr_arr2str_iff_empty :
    (arr2str (ofBytes [])).map (fun s => str2arr 0 (c_str s)) = some (ofBytes []) ∧
    (arr2str (ofBytes [1])).map (fun s => str2arr 0 (c_str s)) ≠ some (ofBytes [1]) ∧
    arr2str (str2arr 0 text01) ≠ some (upper text01.bytes) :=
  ⟨((str2arr_arr2str_iff 0).1 [] (by decide)).mpr rfl,
    fun h => absurd (((str2arr_arr2str_iff 0).1 [1] (by decide)).mp h) (by decide),
    fun h => absurd
      (((str2arr_arr2str_iff 0).2 text01 (by decide) (by decide) (by decide)).mp h) (by decide)⟩

end Autocom.Conv
