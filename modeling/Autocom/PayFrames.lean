import Autocom.HexText

/-! # What the payment frames guarantee

A frame is `STX`, the two length bytes, the version, the command, the error
byte, the body and the LRC. Everything below is read off one equation for
`getHdr` (`getHdr_ofInts`) and, for byte arguments, one for the frame as bytes
(`getHdr_ofBytes`). The last thing `getHdr` does with a frame is to show it with
`X.arr2str`, and it comes back only if that call does. -/
namespace Autocom.PayFrames
open Autocom Autocom.Lib Autocom.PayUtil

/-! ## The frame in closed form -/

/-- The length the header announces: five header fields and the body. -/
def msgLen (body : List SQInteger) : SQInteger := 5 + BitVec.ofNat 64 body.length

/-- `MESSAGE` when the LRC is computed. -/
def message (comand : SQInteger) (body : List SQInteger) : List SQInteger :=
  [(msgLen body).sshiftRight 8, msgLen body &&& 0xFF, 0x10, comand, 0x0] ++ body

/-- `STX` when it is shown. -/
def shown (comand : SQInteger) (body : List SQInteger) : List SQInteger :=
  [0x2] ++ (message comand body ++ [xorSum (message comand body)])

theorem length_shown (comand : SQInteger) (body : List SQInteger) :
    (shown comand body).length = body.length + 7 := by
  simp [shown, message]

theorem getHdr_ofInts (X_arr2str : Arr2str) (comand : SQInteger)
    (body : Option (List SQInteger)) : getHdr X_arr2str comand (body.map ofInts) =
      X_arr2str (ofInts (shown comand (body.getD []))) := by
  unfold shown
  have hlrc := calcLrc_ofInts (message comand (body.getD []))
  cases body with
  | none =>
    simp only [Option.map_none, Option.getD_none] at hlrc ⊢
    simp only [ofInts, List.map_append] at hlrc ⊢
    rw [← hlrc]
    rfl
  | some b =>
    simp only [Option.map_some, Option.getD_some] at hlrc ⊢
    have hlen : len (ofInts b) = BitVec.ofNat 64 b.length := by simp [len]
    simp only [ofInts, List.map_append] at hlrc ⊢
    rw [← hlrc]
    simp only [getHdr, ofInts] at hlen ⊢
    rw [hlen]
    rfl

/-- A frame that is shown is returned as it was built. -/
theorem getHdr_of_shows {X_arr2str : Arr2str} (comand : SQInteger)
    (body : Option (List SQInteger)) (hX : Shows X_arr2str ((body.getD []).length + 7)) :
    getHdr X_arr2str comand (body.map ofInts) =
      some (ofInts (shown comand (body.getD []))) := by
  rw [getHdr_ofInts]
  exact hX _ (length_shown comand _).le

/-- `X.arr2str` if it is the `arr2str` of `main.cpp`, which only reads its array. -/
def main_arr2str : Arr2str := fun a => (Conv.arr2str a).map fun _ => a

theorem spares_main : Spares main_arr2str := by
  intro a a' h
  obtain ⟨-, -, rfl⟩ := Option.map_eq_some_iff.mp h
  rfl

theorem shows_main {n : Nat} (hn : n ≤ 4096) : Shows main_arr2str n := by
  intro xs hxs
  have hfits : (ofInts xs).length ≤ 4096 := by
    rw [length_ofInts]
    omega
  rw [main_arr2str, Conv.arr2str, if_pos hfits, GetArray_ofInts]
  rfl

/-- Its buffer takes frames with a body of up to 4089 elements. -/
theorem getHdr_main_isSome (comand : SQInteger) (body : Option (List SQInteger)) :
    (getHdr main_arr2str comand (body.map ofInts)).isSome = true ↔
      (body.getD []).length ≤ 4089 := by
  have hlen := length_shown comand (body.getD [])
  constructor
  · intro hsome
    rw [getHdr_ofInts] at hsome
    by_contra hlong
    have hover : ¬ (ofInts (shown comand (body.getD []))).length ≤ 4096 := by
      rw [length_ofInts]
      omega
    rw [main_arr2str, Conv.arr2str, if_neg hover] at hsome
    cases hsome
  · intro hshort
    rw [getHdr_of_shows comand body (shows_main (by omega))]
    rfl

theorem xorSum_ofByte (bs : Bytes) : xorSum (bs.map ofByte) = ofByte (xorSum bs) :=
  xorSum_map rfl (fun a b => by simp [ofByte]) bs

theorem xorSum_truncate (xs : List SQInteger) :
    xorSum (xs.map (BitVec.setWidth 8)) = (xorSum xs).setWidth 8 :=
  xorSum_map rfl (fun a b => by simp) xs

/-- The length byte pair and the frame, for arguments that are bytes. -/
def lenHi (n : Nat) : Byte := BitVec.ofNat 8 ((5 + n) / 256)
def lenLo (n : Nat) : Byte := BitVec.ofNat 8 (5 + n)

def frameMessage (comand : Byte) (body : Bytes) : Bytes :=
  [lenHi body.length, lenLo body.length, 0x10, comand, 0x0] ++ body

def frame (comand : Byte) (body : Bytes) : Bytes :=
  [0x2] ++ (frameMessage comand body ++ [xorSum (frameMessage comand body)])

/-- The length field holds a body of up to 65530 bytes. -/
def maxBody : Nat := 65530

/-- The low byte of an integer. -/
theorem and_0xFF (v : SQInteger) : v &&& 0xFF = ofByte (v.setWidth 8) := by
  apply BitVec.eq_of_toNat_eq
  have hand : v.toNat &&& 255 = v.toNat % 256 := Nat.and_two_pow_sub_one_eq_mod _ 8
  rw [BitVec.toNat_and, show (0xFF : SQInteger).toNat = 255 from rfl, hand]
  simp only [ofByte, BitVec.toNat_setWidth]
  omega

theorem message_ofBytes (comand : Byte) {body : Bytes} (h : body.length ≤ maxBody) :
    message (ofByte comand) (body.map ofByte) = (frameMessage comand body).map ofByte := by
  have hn : 5 + body.length < 65536 := by unfold maxBody at h; omega
  have hlen : msgLen (body.map ofByte) = BitVec.ofNat 64 (5 + body.length) := by
    simp [msgLen, BitVec.ofNat_add]
  have hhi : (msgLen (body.map ofByte)).sshiftRight 8 = ofByte (lenHi body.length) := by
    rw [hlen]
    apply BitVec.eq_of_toNat_eq
    rw [BitVec.sshiftRight_eq_of_msb_false (BitVec.msb_eq_false_iff_two_mul_lt.mpr
      (by simp only [BitVec.toNat_ofNat]; omega))]
    simp only [BitVec.toNat_ushiftRight, BitVec.toNat_ofNat, ofByte, lenHi,
      BitVec.toNat_setWidth, Nat.shiftRight_eq_div_pow]
    omega
  have hlo : msgLen (body.map ofByte) &&& 0xFF = ofByte (lenLo body.length) := by
    rw [hlen, and_0xFF]
    apply BitVec.eq_of_toNat_eq
    simp only [BitVec.toNat_ofNat, ofByte, lenLo, BitVec.toNat_setWidth]
    omega
  simp only [message, hhi, hlo, frameMessage, List.map_append, List.map_cons, List.map_nil]
  rfl

theorem map_ofBytes (body : Option Bytes) :
    body.map ofBytes = (body.map (List.map ofByte)).map ofInts := by
  cases body <;> rfl

/-- **The frame of byte arguments, as bytes.** -/
theorem getHdr_ofBytes {X_arr2str : Arr2str} (comand : Byte) (body : Option Bytes)
    (h : (body.getD []).length ≤ maxBody) (hX : Shows X_arr2str ((body.getD []).length + 7)) :
    getHdr X_arr2str (ofByte comand) (body.map ofBytes) =
      some (ofBytes (frame comand (body.getD []))) := by
  have hd : (body.map (List.map ofByte)).getD [] = (body.getD []).map ofByte := by
    cases body <;> rfl
  rw [map_ofBytes, getHdr_of_shows _ _ (by rwa [hd, List.length_map]), hd, shown,
    message_ofBytes comand h, xorSum_ofByte]
  simp [frame, ofBytes, ofByte]

/-! ## Reading the fields back

`getCommand` and `getError` use the positions of `MESSAGE`; a whole frame has
`STX` before it, so each of them reads the field before the one it is named
after: the version, and the command. `include.sss` indexes the same frame with
`CMD_IDX = 4` and `ERR_IDX = 5`. -/

theorem getCommand_shown (comand : SQInteger) (body : List SQInteger) :
    getCommand (ofInts (shown comand body)) = .integer 0x10 := rfl

theorem getError_shown (comand : SQInteger) (body : List SQInteger) :
    getError (ofInts (shown comand body)) = .integer comand := rfl

/-- **On no frame do both readers return the field they are named after**: the
command is read as the version 0x10, and the error as the command, so both
could be right only for a command that is 0x10 and 0 at once. -/
theorem fields_never_read_back (X_arr2str : Arr2str) (hX : Spares X_arr2str) (c : Byte)
    (body : Option Bytes) :
    ¬ ∃ f, getHdr X_arr2str (ofByte c) (body.map ofBytes) = some f ∧
      getCommand f = .integer (ofByte c) ∧ getError f = .integer 0 := by
  rintro ⟨f, hf, hc, he⟩
  rw [map_ofBytes, getHdr_ofInts] at hf
  rw [hX _ _ hf, getCommand_shown] at hc
  rw [hX _ _ hf, getError_shown] at he
  have hversion : ofByte c = 0x10 := (SQObject.integer.inj hc).symm
  have hzero : ofByte c = 0 := SQObject.integer.inj he
  rw [hversion] at hzero
  exact absurd hzero (by decide)

theorem device_information_request_misread :
    ∃ f, getHdr main_arr2str (ofByte 0x19) none = some f ∧
      ¬ (getCommand f = .integer (ofByte 0x19) ∧ getError f = .integer 0) :=
  ⟨_, getHdr_ofBytes 0x19 none (by decide) (shows_main (by decide)), by decide⟩

theorem fields_never_read_back_request :
    ¬ ∃ f, getHdr main_arr2str (ofByte 0x12) ((some [0x0, 0x5]).map ofBytes) = some f ∧
      getCommand f = .integer (ofByte 0x12) ∧ getError f = .integer 0 :=
  fields_never_read_back main_arr2str spares_main 0x12 (some [0x0, 0x5])

/-! ## Frames are unambiguous -/

theorem length_frame (c : Byte) (body : Bytes) : (frame c body).length = body.length + 7 := by
  simp [frame, frameMessage]

/-- The two length bytes determine the length of the body. -/
theorem body_length_of_len {m n : Nat} (hm : m ≤ maxBody) (hn : n ≤ maxBody)
    (hhi : lenHi m = lenHi n) (hlo : lenLo m = lenLo n) : m = n := by
  have h1 := congrArg BitVec.toNat hhi
  have h2 := congrArg BitVec.toNat hlo
  simp only [lenHi, lenLo, BitVec.toNat_ofNat] at h1 h2
  unfold maxBody at hm hn
  omega

theorem frame_prefix {c₁ c₂ : Byte} {b₁ b₂ : Bytes} (h₁ : b₁.length ≤ maxBody)
    (h₂ : b₂.length ≤ maxBody) (h : frame c₁ b₁ <+: frame c₂ b₂) : c₁ = c₂ ∧ b₁ = b₂ := by
  have hpair : lenHi b₁.length = lenHi b₂.length ∧ lenLo b₁.length = lenLo b₂.length := by
    simp only [frame, frameMessage, List.cons_append, List.nil_append, List.cons_prefix_cons] at h
    exact ⟨h.2.1, h.2.2.1⟩
  have hlen : b₁.length = b₂.length := body_length_of_len h₁ h₂ hpair.1 hpair.2
  -- equal lengths make the prefix the whole frame
  have heq : frame c₁ b₁ = frame c₂ b₂ :=
    h.eq_of_length (by rw [length_frame, length_frame, hlen])
  simp only [frame, frameMessage, List.cons_append, List.nil_append, List.cons.injEq] at heq
  obtain ⟨-, -, -, -, hc, -, hrest⟩ := heq
  exact ⟨hc, (List.append_inj hrest hlen).1⟩

theorem enquireLen_frame (c : Byte) {body : Bytes} (h : body.length ≤ maxBody) :
    enquireLen (ofBytes (frame c body)) = some (BitVec.ofNat 64 (5 + body.length)) := by
  have hn : 5 + body.length < 65536 := by unfold maxBody at h; omega
  have hread : enquireLen (ofBytes (frame c body)) =
      some ((ofByte (lenHi body.length) <<< 8) ||| ofByte (lenLo body.length)) := rfl
  rw [hread]
  have hlo : (ofByte (lenLo body.length)).toNat < 2 ^ 8 := by
    simp only [ofByte, BitVec.toNat_setWidth]
    have := (lenLo body.length).isLt
    omega
  have hhi : (ofByte (lenHi body.length) <<< 8).toNat = 2 ^ 8 * ((5 + body.length) / 256) := by
    simp only [ofByte, lenHi, BitVec.toNat_shiftLeft, BitVec.toNat_setWidth, BitVec.toNat_ofNat,
      Nat.shiftLeft_eq]
    omega
  refine congrArg some (BitVec.eq_of_toNat_eq ?_)
  rw [BitVec.toNat_or, hhi, ← Nat.two_pow_add_eq_or_of_lt hlo]
  simp only [ofByte, lenLo, BitVec.toNat_setWidth, BitVec.toNat_ofNat]
  omega

theorem ofBytes_in_range {bs : Bytes} {o : SQObject} (h : o ∈ ofBytes bs) :
    ∃ v : SQInteger, o = .integer v ∧ 0 ≤ v.toInt ∧ v.toInt ≤ 255 := by
  obtain ⟨v, hv, rfl⟩ := List.mem_map.mp h
  obtain ⟨b, -, rfl⟩ := List.mem_map.mp hv
  have hnat : (ofByte b).toNat = b.toNat := by
    simp only [ofByte, BitVec.toNat_setWidth]
    have := b.isLt
    omega
  have hint : (ofByte b).toInt = b.toNat := by
    have := b.isLt
    rw [BitVec.toInt_eq_toNat_of_lt (by omega), hnat]
  refine ⟨_, rfl, ?_, ?_⟩
  · omega
  · have := b.isLt; omega

/-- **Frames are unambiguous.** No frame of bytes is a proper initial part of
another, equal frames have the same command and body, and the length field, the
frame's length and its elements are what the layout says. -/
theorem frames_unambiguous (X_arr2str : Arr2str) (c₁ c₂ : Byte) (b₁ b₂ : Option Bytes)
    (h₁ : (b₁.getD []).length ≤ 65530) (h₂ : (b₂.getD []).length ≤ 65530)
    (hX₁ : Shows X_arr2str ((b₁.getD []).length + 7))
    (hX₂ : Shows X_arr2str ((b₂.getD []).length + 7)) :
    ∃ f₁ f₂, getHdr X_arr2str (ofByte c₁) (b₁.map ofBytes) = some f₁ ∧
      getHdr X_arr2str (ofByte c₂) (b₂.map ofBytes) = some f₂ ∧
      (f₁ <+: f₂ → c₁ = c₂ ∧ b₁.getD [] = b₂.getD []) ∧
      enquireLen f₁ = some (5 + BitVec.ofNat 64 (b₁.getD []).length) ∧
      f₁.length = (b₁.getD []).length + 7 ∧
      ∀ o ∈ f₁, ∃ v : SQInteger, o = .integer v ∧ 0 ≤ v.toInt ∧ v.toInt ≤ 255 := by
  refine ⟨_, _, getHdr_ofBytes c₁ b₁ h₁ hX₁, getHdr_ofBytes c₂ b₂ h₂ hX₂, fun h => ?_, ?_, ?_,
    fun o ho => ofBytes_in_range ho⟩
  · obtain ⟨t, ht, heq⟩ := List.prefix_map_iff.mp h
    obtain ⟨f, hf, rfl⟩ := List.prefix_map_iff.mp ht
    have hframe : f = frame c₁ (b₁.getD []) := (ofBytes_inj heq).symm
    exact frame_prefix h₁ h₂ (hframe ▸ hf)
  · rw [enquireLen_frame c₁ h₁, BitVec.ofNat_add]
    rfl
  · rw [length_ofBytes, length_frame]

/-- A sale of 5 and a rate of 115200. -/
theorem frames_unambiguous_request :
    ∃ f₁ f₂, getHdr main_arr2str (ofByte 0x12) ((some [0, 0, 0, 5, 0x11]).map ofBytes) =
        some f₁ ∧
      getHdr main_arr2str (ofByte 0x1A) ((some [0x51, 1, 0x38]).map ofBytes) = some f₂ ∧
      (f₁ <+: f₂ → (0x12 : Byte) = 0x1A ∧ ([0, 0, 0, 5, 0x11] : Bytes) = [0x51, 1, 0x38]) ∧
      enquireLen f₁ = some 10 ∧ f₁.length = 12 ∧
      ∀ o ∈ f₁, ∃ v : SQInteger, o = .integer v ∧ 0 ≤ v.toInt ∧ v.toInt ≤ 255 :=
  frames_unambiguous main_arr2str 0x12 0x1A (some [0, 0, 0, 5, 0x11]) (some [0x51, 1, 0x38])
    (by decide) (by decide) (shows_main (by decide)) (shows_main (by decide))

/-! ## The LRC after truncation to bytes -/

/-- What `Device::write` puts on the wire: each element cast to `uint8_t`. -/
theorem GetArray_shown (command : SQInteger) (body : List SQInteger) :
    GetArray (ofInts (shown command body)) =
      some (0x2 :: ((message command body).map (BitVec.setWidth 8) ++
        [xorSum ((message command body).map (BitVec.setWidth 8))])) := by
  rw [GetArray_ofInts, shown, xorSum_truncate]
  simp

theorem calcLrc_tail_ofBytes (b : Byte) (bs : Bytes) :
    calcLrc (ofBytes (b :: bs)).tail = ofByte (xorSum bs) := by
  have htail : (ofBytes (b :: bs)).tail = ofInts (bs.map ofByte) := rfl
  rw [htail, calcLrc_ofInts, xorSum_ofByte]

/-- **The LRC survives the truncation and detects every single corruption.**
`w` is the frame as bytes. Without its first byte it sums to zero, and no
longer does when any one byte after the first is replaced by another. -/
theorem lrc_detects_corruption (X_arr2str : Arr2str) (command : SQInteger)
    (body : Option (List SQInteger)) (hX : Shows X_arr2str ((body.getD []).length + 7)) :
    ∃ f w, getHdr X_arr2str command (body.map ofInts) = some f ∧ GetArray f = some w ∧
      calcLrc (ofBytes w).tail = 0 ∧
      ∀ k v, 1 ≤ k → ∀ hk : k < w.length, v ≠ w[k] →
        calcLrc (ofBytes (w.set k v)).tail ≠ 0 := by
  obtain ⟨m, hm⟩ : ∃ m, m = (message command (body.getD [])).map (BitVec.setWidth 8) := ⟨_, rfl⟩
  refine ⟨_, _, getHdr_of_shows command body hX, GetArray_shown command _, ?_, ?_⟩
  · rw [← hm, calcLrc_tail_ofBytes, xorSum_check]
    rfl
  · rw [← hm]
    intro k v h1 hk hv
    obtain ⟨j, rfl⟩ := Nat.exists_eq_add_of_le' h1
    rw [List.set_cons_succ, calcLrc_tail_ofBytes]
    have hj : j < (m ++ [xorSum m]).length := by simpa using hk
    rw [xorSum_set hj, xorSum_check]
    -- what is left is the difference of the old and the new byte
    intro h0
    have hdiff := ofByte_inj (h0.trans (show (0 : SQInteger) = ofByte 0 from rfl))
    rw [BitVec.ofNat_eq_ofNat, BitVec.zero_xor] at hdiff
    exact hv (BitVec.xor_eq_zero_iff.mp hdiff).symm

/-- Neither the command nor the body fits a byte, and one element is negative. -/
theorem lrc_detects_corruption_wide :
    ∃ f w, getHdr main_arr2str 0x1234 ((some [-1, 0x100, 7]).map ofInts) = some f ∧
      GetArray f = some w ∧ calcLrc (ofBytes w).tail = 0 ∧
      ∀ k v, 1 ≤ k → ∀ hk : k < w.length, v ≠ w[k] →
        calcLrc (ofBytes (w.set k v)).tail ≠ 0 :=
  lrc_detects_corruption main_arr2str 0x1234 (some [-1, 0x100, 7]) (shows_main (by decide))

/-! ## The sale request -/

/-- Integers as the digits of a number, the most significant first. -/
def bigEndian : SQArray → Int → Option Int
  | [], n => some n
  | .integer v :: rest, n => bigEndian rest (256 * n + v.toInt)
  | .null :: _, _ => none

/-- The body of a sale request as bytes. -/
def saleBody (ammount : SQInteger) : Bytes :=
  [(ammount.sshiftRight 24).setWidth 8, (ammount.sshiftRight 16).setWidth 8,
    (ammount.sshiftRight 8).setWidth 8, ammount.setWidth 8, 0x11]

theorem saleTransacrionReq_frame {X_arr2str : Arr2str} (hX : Shows X_arr2str 12)
    (ammount : SQInteger) :
    saleTransacrionReq X_arr2str ammount = some (ofBytes (frame 0x12 (saleBody ammount))) := by
  have hbody : saleTransacrionReq X_arr2str ammount =
      getHdr X_arr2str (ofByte 0x12) ((some (saleBody ammount)).map ofBytes) := by
    simp only [saleTransacrionReq, and_0xFF]
    rfl
  rw [hbody, getHdr_ofBytes 0x12 (some (saleBody ammount)) (by decide : 5 ≤ maxBody) hX]
  rfl

theorem calcLrc_frame (comand : Byte) (body : Bytes) :
    calcLrc (ofBytes (frame comand body)).tail = 0 := by
  rw [frame, List.singleton_append, calcLrc_tail_ofBytes, xorSum_check]
  rfl

/-- A byte of a non-negative amount. -/
theorem byte_of_ammount {ammount : SQInteger} (h0 : 0 ≤ ammount.toInt) (n : Nat) :
    (ofByte ((ammount.sshiftRight n).setWidth 8)).toInt = ammount.toInt / 2 ^ n % 256 := by
  have hpos : 2 * ammount.toNat < 2 ^ 64 := BitVec.toInt_pos_iff.mp h0
  have hshift : (ammount.sshiftRight n).toNat = ammount.toNat / 2 ^ n := by
    rw [BitVec.sshiftRight_eq_of_msb_false (BitVec.msb_eq_false_iff_two_mul_lt.mpr hpos),
      BitVec.toNat_ushiftRight, Nat.shiftRight_eq_div_pow]
  have hbyte : (ofByte ((ammount.sshiftRight n).setWidth 8)).toNat =
      ammount.toNat / 2 ^ n % 256 := by
    simp only [ofByte, BitVec.toNat_setWidth, hshift]
    omega
  rw [BitVec.toInt_eq_toNat_of_lt (by omega), BitVec.toInt_eq_toNat_of_lt hpos, hbyte]
  push_cast
  rfl

theorem bigEndian_ammount {ammount : SQInteger} (h0 : 0 ≤ ammount.toInt)
    (h32 : ammount.toInt < 2 ^ 32) :
    bigEndian (((ofBytes (frame 0x12 (saleBody ammount))).drop 6).take 4) 0 =
      some ammount.toInt := by
  have hdigits : bigEndian (((ofBytes (frame 0x12 (saleBody ammount))).drop 6).take 4) 0 =
      some (256 * (256 * (256 * (256 * 0 + (ofByte ((ammount.sshiftRight 24).setWidth 8)).toInt) +
        (ofByte ((ammount.sshiftRight 16).setWidth 8)).toInt) +
        (ofByte ((ammount.sshiftRight 8).setWidth 8)).toInt) +
        (ofByte ((ammount.sshiftRight 0).setWidth 8)).toInt) := by
    rw [BitVec.sshiftRight_zero]
    rfl
  rw [hdigits]
  simp only [byte_of_ammount h0]
  refine congrArg some ?_
  omega

/-- **The amount charged is the amount asked for.** -/
theorem sale_charges_ammount (X_arr2str : Arr2str) (hX : Shows X_arr2str 12)
    (ammount : SQInteger) (h0 : 0 ≤ ammount.toInt) (h32 : ammount.toInt < 2 ^ 32) :
    ∃ f, saleTransacrionReq X_arr2str ammount = some f ∧
      (∀ o ∈ f, ∃ v : SQInteger, o = .integer v ∧ 0 ≤ v.toInt ∧ v.toInt ≤ 255) ∧
      bigEndian ((f.drop 6).take 4) 0 = some ammount.toInt ∧
      calcLrc f.tail = 0 ∧
      ∀ ammount', 0 ≤ ammount'.toInt → ammount'.toInt < 2 ^ 32 →
        saleTransacrionReq X_arr2str ammount = saleTransacrionReq X_arr2str ammount' →
          ammount = ammount' := by
  refine ⟨_, saleTransacrionReq_frame hX ammount, fun o ho => ofBytes_in_range ho,
    bigEndian_ammount h0 h32, calcLrc_frame _ _, fun ammount' h0' h32' heq => ?_⟩
  rw [saleTransacrionReq_frame hX, saleTransacrionReq_frame hX] at heq
  have hsame := bigEndian_ammount h0' h32'
  rw [← Option.some.inj heq, bigEndian_ammount h0 h32] at hsame
  exact BitVec.eq_of_toInt_eq (Option.some.inj hsame)

theorem sale_charges_ammount_150 :
    ∃ f, saleTransacrionReq main_arr2str 150 = some f ∧
      (∀ o ∈ f, ∃ v : SQInteger, o = .integer v ∧ 0 ≤ v.toInt ∧ v.toInt ≤ 255) ∧
      bigEndian ((f.drop 6).take 4) 0 = some (150 : SQInteger).toInt ∧
      calcLrc f.tail = 0 ∧
      ∀ ammount', 0 ≤ ammount'.toInt → ammount'.toInt < 2 ^ 32 →
        saleTransacrionReq main_arr2str 150 = saleTransacrionReq main_arr2str ammount' →
          150 = ammount' :=
  sale_charges_ammount main_arr2str (shows_main (by decide)) 150 (by decide) (by decide)

end Autocom.PayFrames
