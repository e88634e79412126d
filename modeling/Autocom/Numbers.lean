import Autocom.HexText
import Mathlib.Data.Nat.Digits.Lemmas

/-! # Numbers and text

`num2str` and `num2arr` write an `int` in hex at one of four widths, `str2num`
reads one in any base. The width of `%0wX` is a minimum and the argument is an
`int` at every width, so what is written stands for 32 bits whatever the width. -/
namespace Autocom.Numbers
open Autocom Conv PayUtil

/-! ## The functions -/

/-- The `switch` over `bytes`; with no case for it the buffer stays as it is. -/
def printHex (out : CString) (hex : BitVec 32) (bytes : Int) : CString :=
  match bytes with
  | 1 => c_str (sprintfX 2 hex)
  | 2 => c_str (sprintfX 4 hex)
  | 4 => c_str (sprintfX 8 hex)
  | 8 => c_str (sprintfX 16 hex)
  | _ => out

/-- `out` is what the last call left in the static buffer. -/
def num2str (out : CString) (hex : BitVec 32) (bytes : Int) : CString := printHex out hex bytes

/-- `out` and `val` are what the local buffer, and the local of `str2arr`, hold. -/
def num2arr (out : CString) (val hex : BitVec 32) (bytes : Int) : SQArray :=
  str2arr val (printHex out hex bytes)

/-- Reads the digits in front, `n` being the value of those before them. -/
def strtolDigits (base : Nat) : Nat → Bytes → Nat
  | n, [] => n
  | n, c :: s =>
    match hexDigit c with
    | none => n
    | some d => if d < base then strtolDigits base (base * n + d) s else n

/-- After the sign. `0x` is a prefix only when a digit follows. -/
def strtolUnsigned : Bytes → Nat
  | [] => 0
  | c :: s =>
    if c = 0x30 then
      match s with
      | x :: d :: rest =>
        if (x = 0x78 ∨ x = 0x58) ∧ isxdigit d = true then strtolDigits 16 0 (d :: rest)
        else strtolDigits 8 0 s
      | _ => strtolDigits 8 0 s
    else strtolDigits 10 0 (c :: s)

/-- `strtol(s, NULL, 0)`: a `long` that saturates. -/
def strtol (s : Bytes) : Int :=
  let s := s.dropWhile isSpace
  let v : Int := match s with
    | [] => 0
    | c :: t =>
      if c = 0x2d then -(strtolUnsigned t : Int)
      else if c = 0x2b then strtolUnsigned t else strtolUnsigned s
  max (-2 ^ 63) (min (2 ^ 63 - 1) v)

/-- `(int)strtol(..)` keeps the low 32 bits. -/
def str2num (str : CString) : BitVec 32 := BitVec.ofInt 32 (strtol str.bytes)

/-! ## What the texts stand for -/

/-- The number that a text of hex digits stands for. -/
def hexValue (s : Bytes) : Option Nat :=
  (s.mapM hexDigit).map fun ds => Nat.ofDigits 16 ds.reverse

/-- The elements of an array that are numbers; `str2arr` leaves nulls between. -/
def numbers (a : SQArray) : List SQInteger :=
  a.filterMap fun o => match o with
    | .integer v => some v
    | .null => none

/-- `v` in two's complement on `b` bytes. -/
def onBytes (v : BitVec 32) (b : Nat) : Nat := (v.toInt % 256 ^ b).toNat

/-- The array has `b` bytes, and they are the number `n`, high byte first. -/
def StandsFor (a : SQArray) (b n : Nat) : Prop :=
  ∃ bs : Bytes, numbers a = bs.map ofByte ∧ bs.length = b ∧
    Nat.ofDigits 256 (bs.map BitVec.toNat).reverse = n

/-- Two upper-case digits for each byte of the number, and the array of these
bytes, whatever the buffers held. -/
structure FixedWidth (out : CString) (val v : BitVec 32) (b : Nat) : Prop where
  length : (num2str out v b).bytes.length = 2 * b
  upper : ∀ c ∈ (num2str out v b).bytes, isxdigit c = true ∧ toupper c = c
  value : hexValue (num2str out v b).bytes = some (onBytes v b)
  array : StandsFor (num2arr out val v b) b (onBytes v b)

theorem width_cases {b : Nat} (hb : b ∈ [1, 2, 4, 8]) : b = 1 ∨ b = 2 ∨ b = 4 ∨ b = 8 := by
  simpa using hb

/-! ## Digits -/

/-- The digits that `%0wX` writes. -/
def digitsX (width : Nat) (v : BitVec 32) : List Nat :=
  List.replicate (width - (Nat.digits 16 v.toNat).length) 0 ++ (Nat.digits 16 v.toNat).reverse

theorem sprintfX_eq (width : Nat) (v : BitVec 32) :
    sprintfX width v = (digitsX width v).map upperDigit := by
  simp [sprintfX, digitsX, upperDigit]

theorem digitsX_lt {width : Nat} {v : BitVec 32} {d : Nat} (h : d ∈ digitsX width v) : d < 16 := by
  rcases List.mem_append.mp h with hzero | hdigit
  · have := List.eq_of_mem_replicate hzero
    omega
  · exact Nat.digits_lt_base (by decide) (List.mem_reverse.mp hdigit)

theorem ofDigits_digitsX (width : Nat) (v : BitVec 32) :
    Nat.ofDigits 16 (digitsX width v).reverse = v.toNat := by
  rw [digitsX, List.reverse_append, List.reverse_reverse, List.reverse_replicate,
    Nat.ofDigits_append_replicate_zero, Nat.ofDigits_digits]

theorem length_digitsX (width : Nat) (v : BitVec 32) :
    (digitsX width v).length = max width (Nat.digits 16 v.toNat).length := by
  rw [digitsX, List.length_append, List.length_replicate, List.length_reverse]
  omega

/-- The width is a minimum: a number of that width gets it, any other its own. -/
theorem length_sprintfX_iff (width : Nat) (v : BitVec 32) :
    (sprintfX width v).length = width ↔ v.toNat < 16 ^ width := by
  rw [sprintfX_eq, List.length_map, length_digitsX]
  have hlt : (Nat.digits 16 v.toNat).length ≤ width ↔ v.toNat < 16 ^ width :=
    Nat.digits_length_le_iff (by decide) _
  rw [← hlt]
  omega

theorem hexDigit_map {ds : List Nat} (h : ∀ d ∈ ds, d < 16) :
    (ds.map upperDigit).mapM hexDigit = some ds := by
  induction ds with
  | nil => rfl
  | cons d ds ih =>
    have hd := hexDigit_upperDigit d (h d (by simp))
    have hds := ih fun e he => h e (by simp [he])
    simp [hd, hds]

theorem hexValue_map {ds : List Nat} (h : ∀ d ∈ ds, d < 16) :
    hexValue (ds.map upperDigit) = some (Nat.ofDigits 16 ds.reverse) := by
  rw [hexValue, hexDigit_map h]
  rfl

theorem hexValue_sprintfX (width : Nat) (v : BitVec 32) :
    hexValue (sprintfX width v) = some v.toNat := by
  rw [sprintfX_eq, hexValue_map fun d hd => digitsX_lt hd, ofDigits_digitsX]

theorem sprintfX_upper {width : Nat} {v : BitVec 32} {c : Byte} (h : c ∈ sprintfX width v) :
    isxdigit c = true ∧ toupper c = c := by
  rw [sprintfX_eq] at h
  obtain ⟨d, hd, rfl⟩ := List.mem_map.mp h
  have hdigit := hexDigit_upperDigit d (digitsX_lt hd)
  exact ⟨by rw [isxdigit, hdigit]; rfl, (digit_of_hexDigit hdigit).upper⟩

theorem c_str_sprintfX (width : Nat) (v : BitVec 32) :
    (c_str (sprintfX width v)).bytes = sprintfX width v := by
  refine cstr_eq_self fun hmem => ?_
  rw [sprintfX_eq] at hmem
  obtain ⟨d, hd, hzero⟩ := List.mem_map.mp hmem
  exact upperDigit_ne_zero d (digitsX_lt hd) hzero

/-- At the four widths nothing of the old buffer is left. -/
theorem printHex_bytes (out : CString) (v : BitVec 32) {b : Nat} (hb : b ∈ [1, 2, 4, 8]) :
    (printHex out v b).bytes = sprintfX (2 * b) v := by
  rcases width_cases hb with rfl | rfl | rfl | rfl <;> exact c_str_sprintfX _ v

/-- No text overruns `char out[32]`. -/
theorem length_printHex_lt (out : CString) (v : BitVec 32) {b : Nat} (hb : b ∈ [1, 2, 4, 8]) :
    (printHex out v b).bytes.length < 32 := by
  rw [printHex_bytes out v hb, sprintfX_eq, List.length_map, length_digitsX]
  have hdigits : (Nat.digits 16 v.toNat).length ≤ 8 :=
    (Nat.digits_length_le_iff (by decide) _).mpr v.isLt
  have hwidth := width_cases hb
  omega

/-! ## Reading the digits back -/

/-- The induction is on the digits, with what was read before in `n`. -/
theorem strtolDigits_map {ds : List Nat} (h : ∀ d ∈ ds, d < 16) (n : Nat) :
    strtolDigits 16 n (ds.map upperDigit) = ds.foldl (fun n d => 16 * n + d) n := by
  induction ds generalizing n with
  | nil => rfl
  | cons d ds ih =>
    have hd : d < 16 := h d (by simp)
    rw [List.map_cons, strtolDigits, hexDigit_upperDigit d hd, List.foldl_cons,
      ← ih (fun e he => h e (by simp [he]))]
    exact if_pos hd

theorem foldl_digits (ds : List Nat) :
    ds.foldl (fun n d => 16 * n + d) 0 = Nat.ofDigits 16 ds.reverse := by
  rw [Nat.ofDigits_eq_foldr, List.foldr_reverse]
  simp only [add_comm, Nat.cast_id]

theorem strtolUnsigned_hex {ds : List Nat} (h : ∀ d ∈ ds, d < 16) (hne : ds ≠ []) :
    strtolUnsigned (0x30 :: 0x78 :: ds.map upperDigit) = Nat.ofDigits 16 ds.reverse := by
  cases ds with
  | nil => exact absurd rfl hne
  | cons d ds =>
    have hdigit : isxdigit (upperDigit d) = true := by
      rw [isxdigit, hexDigit_upperDigit d (h d (by simp))]; rfl
    rw [← foldl_digits, ← strtolDigits_map h, List.map_cons, strtolUnsigned, if_pos rfl]
    exact if_pos ⟨.inl rfl, hdigit⟩

/-- The `long` is the unsigned value, far below its bounds. -/
theorem strtol_hex (width : Nat) (hwidth : 0 < width) (v : BitVec 32) :
    strtol (0x30 :: 0x78 :: sprintfX width v) = v.toNat := by
  have hne : digitsX width v ≠ [] := by
    rw [← List.length_pos_iff, length_digitsX]; omega
  have hvalue := strtolUnsigned_hex (fun d hd => digitsX_lt hd) hne
  rw [ofDigits_digitsX, ← sprintfX_eq] at hvalue
  have hlt := v.isLt
  rw [strtol, List.dropWhile_cons_of_neg (by decide)]
  simp only [hvalue]
  rw [if_neg (by decide), if_neg (by decide)]
  omega

/-- **`str2num` reads back every number** that `num2str` writes, negative ones
as the unsigned values that the cast makes negative again. -/
theorem str2num_num2str (out : CString) (v : BitVec 32) (b : Nat) (hb : b ∈ [1, 2, 4, 8]) :
    str2num (c_str ([0x30, 0x78] ++ (num2str out v b).bytes)) = v := by
  have hwidth : 0 < 2 * b := by
    have := width_cases hb
    omega
  have htext : (c_str ([0x30, 0x78] ++ (num2str out v b).bytes)).bytes =
      0x30 :: 0x78 :: sprintfX (2 * b) v := by
    rw [num2str, printHex_bytes out v hb]
    refine cstr_eq_self fun hmem => ?_
    have hrest : 0 ∈ sprintfX (2 * b) v := by simpa using hmem
    rw [← c_str_sprintfX] at hrest
    exact (c_str _).noNul hrest
  rw [str2num, htext, strtol_hex _ hwidth, BitVec.ofInt_natCast, BitVec.ofNat_toNat,
    BitVec.setWidth_eq]

/-- -1 at width 1 is `FFFFFFFF`. -/
theorem str2num_num2str_neg :
    str2num (c_str ([0x30, 0x78] ++ (num2str (c_str []) (-1) 1).bytes)) = -1 :=
  str2num_num2str (c_str []) (-1) 1 (by simp)

/-! ## The bytes of the array -/

theorem numbers_append (a b : SQArray) : numbers (a ++ b) = numbers a ++ numbers b :=
  List.filterMap_append

theorem numbers_spread (bs : Bytes) : numbers (spread bs) = bs.map ofByte := by
  induction bs with
  | nil => rfl
  | cons b bs ih =>
    rw [spread, List.flatMap_cons, ← spread, numbers_append, ih]
    rfl

theorem spread_null (bs : Bytes) {i : Nat} (hi : i < bs.length) :
    (spread bs)[2 * i + 1]? = some .null := by
  induction bs generalizing i with
  | nil => cases hi
  | cons b bs ih =>
    cases i with
    | zero => rfl
    | succ i => exact ih (Nat.lt_of_succ_lt_succ hi)

def byteDigits (b : Byte) : List Nat := [b.toNat / 16, b.toNat % 16]

theorem toString_eq (bs : Bytes) : Conv.toString bs = (bs.flatMap byteDigits).map upperDigit := by
  induction bs with
  | nil => rfl
  | cons b bs ih =>
    rw [toString_cons, duplet_eq, ih, List.flatMap_cons, List.map_append]
    rfl

theorem byteDigits_lt {bs : Bytes} {d : Nat} (h : d ∈ bs.flatMap byteDigits) : d < 16 := by
  obtain ⟨b, -, hd⟩ := List.mem_flatMap.mp h
  have hb := b.isLt
  simp only [byteDigits, List.mem_cons, List.not_mem_nil, or_false] at hd
  omega

/-- Two digits in base 16 for one in base 256. -/
theorem ofDigits_byteDigits (bs : Bytes) : Nat.ofDigits 16 (bs.flatMap byteDigits).reverse =
    Nat.ofDigits 256 (bs.map BitVec.toNat).reverse := by
  induction bs with
  | nil => rfl
  | cons b bs ih =>
    have hlen : (bs.flatMap byteDigits).length = 2 * bs.length := by
      simp [byteDigits, List.length_flatMap, Nat.mul_comm]
    have hpair : Nat.ofDigits 16 (byteDigits b).reverse = b.toNat := by
      simp [byteDigits, Nat.ofDigits_cons, Nat.mod_add_div]
    rw [List.flatMap_cons, List.reverse_append, Nat.ofDigits_append, ih, hpair, List.map_cons,
      List.reverse_cons, Nat.ofDigits_append, List.length_reverse, List.length_reverse, hlen,
      List.length_map, Nat.ofDigits_singleton, pow_mul, show 16 ^ 2 = 256 from rfl]

theorem hexValue_toString (bs : Bytes) :
    hexValue (Conv.toString bs) = some (Nat.ofDigits 256 (bs.map BitVec.toNat).reverse) := by
  rw [toString_eq, hexValue_map fun d hd => byteDigits_lt hd, ofDigits_byteDigits]

/-- From digits that are as many as the width says, the array has that many bytes,
a null behind each. -/
theorem num2arr_spread (out : CString) (val v : BitVec 32) {b : Nat} (hb : b ∈ [1, 2, 4, 8])
    (hlen : (sprintfX (2 * b) v).length = 2 * b) : ∃ bs : Bytes,
      num2arr out val v b = spread bs ∧ Conv.toString bs = sprintfX (2 * b) v ∧ bs.length = b := by
  have htext := printHex_bytes out v hb
  have heven : Even (printHex out v b).bytes.length := by
    rw [htext, hlen]; exact even_two_mul b
  have hupper : upper (sprintfX (2 * b) v) = sprintfX (2 * b) v := by
    conv_rhs => rw [← List.map_id (sprintfX (2 * b) v)]
    exact List.map_congr_left fun c hc => (sprintfX_upper hc).2
  -- the bytes are read from a text that is written for them again
  have hback : Conv.toString (toBinary val (printHex out v b)) = sprintfX (2 * b) v := by
    rw [← hupper, ← htext]
    exact toString_toBinaryLoop val _ (fun c hc => (sprintfX_upper (htext ▸ hc)).1) heven
  refine ⟨toBinary val (printHex out v b), str2arr_eq val _ heven, hback, ?_⟩
  have hlen' := length_toString (toBinary val (printHex out v b))
  rw [hback, hlen] at hlen'
  omega

theorem standsFor_num2arr (out : CString) (val v : BitVec 32) {b : Nat} (hb : b ∈ [1, 2, 4, 8])
    (hlen : (sprintfX (2 * b) v).length = 2 * b) : StandsFor (num2arr out val v b) b v.toNat := by
  obtain ⟨bs, harray, hback, hbs⟩ := num2arr_spread out val v hb hlen
  refine ⟨bs, by rw [harray, numbers_spread], hbs, ?_⟩
  have hvalue := hexValue_toString bs
  rw [hback, hexValue_sprintfX] at hvalue
  exact (Option.some.inj hvalue).symm

/-! ## When the width is fixed -/

/-- In range for `b` bytes without a sign, which at four bytes every value is. -/
theorem onBytes_iff (v : BitVec 32) {b : Nat} (hb : b ∈ [1, 2, 4, 8]) :
    (v.toNat < 256 ^ b ∧ v.toNat = onBytes v b) ↔
      b = 4 ∨ (0 ≤ v.toInt ∧ v.toInt < 256 ^ b) := by
  have hlt := v.isLt
  have hint := BitVec.toInt_eq_toNat_cond v
  rcases width_cases hb with rfl | rfl | rfl | rfl <;> unfold onBytes <;> split at hint <;> omega

/-- **A number has its width** when it is not negative and fits, or at four
bytes. -/
theorem fixedWidth_iff (out : CString) (val v : BitVec 32) (b : Nat) (hb : b ∈ [1, 2, 4, 8]) :
    FixedWidth out val v b ↔ b = 4 ∨ (0 ≤ v.toInt ∧ v.toInt < 256 ^ b) := by
  have htext : (num2str out v b).bytes = sprintfX (2 * b) v := printHex_bytes out v hb
  have hwidth := length_sprintfX_iff (2 * b) v
  rw [pow_mul] at hwidth
  rw [← onBytes_iff v hb]
  constructor
  · intro h
    refine ⟨hwidth.mp (htext ▸ h.length), ?_⟩
    have hvalue := h.value
    rw [htext, hexValue_sprintfX] at hvalue
    exact Option.some.inj hvalue
  · intro ⟨hlt, hvalue⟩
    have hlen := hwidth.mpr hlt
    refine ⟨htext ▸ hlen, fun c hc => sprintfX_upper (htext ▸ hc), ?_, ?_⟩
    · rw [htext, hexValue_sprintfX, hvalue]
    · rw [← hvalue]
      exact standsFor_num2arr out val v hb hlen

/-- The array of a number that has its width is twice as long as `StandsFor` counts:
every second element is null. -/
theorem FixedWidth.nulls {out : CString} {val v : BitVec 32} {b : Nat} (hb : b ∈ [1, 2, 4, 8])
    (h : FixedWidth out val v b) : (num2arr out val v b).length = 2 * b ∧
      ∀ i < b, (num2arr out val v b)[2 * i + 1]? = some .null := by
  have htext : (num2str out v b).bytes = sprintfX (2 * b) v := printHex_bytes out v hb
  obtain ⟨bs, harray, -, hbs⟩ := num2arr_spread out val v hb (htext ▸ h.length)
  rw [harray, length_spread, hbs]
  exact ⟨rfl, fun i hi => spread_null bs (hbs ▸ hi)⟩

/-- 256 at width 1 is `100`, three digits, and -1 at width 8 is not -1 on eight
bytes. -/
theorem width_not_fixed : (num2str (c_str []) 256 1).bytes = [0x31, 0x30, 0x30] ∧
    ¬ FixedWidth (c_str []) 0 256 1 ∧ ¬ FixedWidth (c_str []) 0 (-1) 8 := by
  have htext : (num2str (c_str []) 256 1).bytes = [0x31, 0x30, 0x30] := by
    decide
  refine ⟨htext, fun h => ?_, fun h => ?_⟩
  · have hlen := h.length
    rw [Nat.cast_one, htext] at hlen
    exact absurd hlen (by decide)
  · have hvalue := h.value
    rw [num2str, printHex_bytes _ _ (by simp), hexValue_sprintfX] at hvalue
    exact absurd hvalue (by decide)

theorem fixedWidth_iff_10 : FixedWidth (c_str []) 0 10 2 ↔
    2 = 4 ∨ (0 ≤ (10 : BitVec 32).toInt ∧ (10 : BitVec 32).toInt < 256 ^ 2) :=
  fixedWidth_iff (c_str []) 0 10 2 (by simp)

end Autocom.Numbers
