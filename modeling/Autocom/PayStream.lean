import Autocom.CallFrame
import Autocom.HexText
import Autocom.Lib.Code
import Autocom.PayFrames
import Autocom.Transmit

/-! # Payment requests down to the line

The terminal reads one frame after another off the line. Its reader is written
here from the layout, apart from `getHdr`, and the two make a self-delimiting
code. So a device on which every call writes a request delivers a stream that the
terminal reads back: the first requests in the order of the calls, then at most a
piece of the next one. -/
namespace Autocom.PayStream
open Autocom Autocom.Lib Autocom.Lib.Lts Autocom.Machine Autocom.PayUtil Autocom.PayFrames
open Autocom.Expect (Regex)
open Autocom.Transmit (timesOut)

/-! ## The frames as a code -/

/-- A request whose length fits the two bytes of the header. -/
structure Request where
  command : Byte
  body : Bytes
  fits : body.length ≤ maxBody
  deriving DecidableEq

def Request.frame (r : Request) : Bytes := PayFrames.frame r.command r.body

/-- The frame at the front of a text: `STX`, length, version, command, error, body
and LRC. -/
def readFrame : Bytes → Option (Request × Bytes)
  | stx :: hi :: lo :: ver :: cmd :: err :: rest =>
    let len := 256 * hi.toNat + lo.toNat
    let body := rest.take (len - 5)
    match rest.drop (len - 5) with
    | [] => none
    | lrc :: rest' =>
      if h : body.length ≤ maxBody ∧ 5 ≤ len ∧ stx = 0x2 ∧ ver = 0x10 ∧ err = 0 ∧
          lrc = xorSum (hi :: lo :: ver :: cmd :: err :: body) then
        some (⟨cmd, body, h.1⟩, rest')
      else none
  | _ => none

theorem len_of_bytes {n : Nat} (h : n ≤ maxBody) :
    256 * (lenHi n).toNat + (lenLo n).toNat = 5 + n := by
  unfold maxBody at h
  simp only [lenHi, lenLo, BitVec.toNat_ofNat]
  omega

theorem bytes_of_len {hi lo : Byte} {n : Nat} (h : 256 * hi.toNat + lo.toNat = 5 + n) :
    lenHi n = hi ∧ lenLo n = lo := by
  have hhi := hi.isLt
  have hlo := lo.isLt
  constructor
  · apply BitVec.eq_of_toNat_eq
    simp only [lenHi, BitVec.toNat_ofNat]
    omega
  · apply BitVec.eq_of_toNat_eq
    simp only [lenLo, BitVec.toNat_ofNat]
    omega

theorem readFrame_frame (r : Request) (rest : Bytes) :
    readFrame (r.frame ++ rest) = some (r, rest) := by
  obtain ⟨cmd, body, hfits⟩ := r
  have hlen : 256 * (lenHi body.length).toNat + (lenLo body.length).toNat - 5 = body.length := by
    rw [len_of_bytes hfits]
    omega
  have hlong : 5 ≤ 256 * (lenHi body.length).toNat + (lenLo body.length).toNat := by
    rw [len_of_bytes hfits]
    omega
  simp only [Request.frame, PayFrames.frame, frameMessage, List.cons_append, List.nil_append,
    List.append_assoc, readFrame, hlen, List.drop_left, List.take_left]
  simp [hfits, hlong]

theorem readFrame_sound {s : Bytes} {r : Request} {rest : Bytes}
    (h : readFrame s = some (r, rest)) : s = r.frame ++ rest := by
  unfold readFrame at h
  split at h
  · next stx hi lo ver cmd err tail =>
    simp only at h
    split at h
    · cases h
    · next lrc rest' hdrop =>
      split at h
      · next hcond =>
        obtain ⟨hfits, hlong, rfl, rfl, rfl, rfl⟩ := hcond
        cases h
        have hle : 256 * hi.toNat + lo.toNat - 5 ≤ tail.length := by
          have hlen := congrArg List.length hdrop
          rw [List.length_drop, List.length_cons] at hlen
          omega
        have hbody : (tail.take (256 * hi.toNat + lo.toNat - 5)).length =
            256 * hi.toNat + lo.toNat - 5 := by
          rw [List.length_take, Nat.min_eq_left hle]
        obtain ⟨hhi, hlo⟩ := bytes_of_len (show 256 * hi.toNat + lo.toNat =
          5 + (tail.take (256 * hi.toNat + lo.toNat - 5)).length by omega)
        have htail := List.take_append_drop (256 * hi.toNat + lo.toNat - 5) tail
        rw [hdrop] at htail
        simp only [Request.frame, PayFrames.frame, frameMessage, hhi, hlo, List.cons_append,
          List.nil_append, List.append_assoc]
        rw [htail]
      · cases h
  · cases h

def payCode : Code Request Byte where
  enc := Request.frame
  dec := readFrame
  complete := readFrame_frame
  sound := readFrame_sound
  nonempty := fun r h => by simp [Request.frame, PayFrames.frame] at h

/-! ## The requests of a run -/

/-- The request that a call writes, if it writes one. -/
def request : Call → Option Request
  | .writeArray a | .writereadArray a _ =>
    if fits a then
      match readFrame a with
      | some (r, []) => some r
      | _ => none
    else none
  | _ => none

/-- The call that an action starts, on either thread. -/
def started : Act → Option Call
  | .script (.act (.call c _)) | .io (.callback (.call c _)) => some c
  | _ => none

/-- The call writes one request, or it does not write. -/
def WritesRequest (c : Call) : Prop := ∀ eol, c.output eol = (request c).map Request.frame

theorem request_frame {r : Request} (h : fits r.frame = true) :
    request (.writeArray r.frame) = some r := by
  have hread := readFrame_frame r []
  rw [List.append_nil] at hread
  rw [request, if_pos h, hread]

/-- **What the script writes with `getHdr` is a request** as long as the array fits
the buffer of `Device::write`. -/
theorem writesRequest_getHdr {X_arr2str : Arr2str} (c : Byte) (body : Option Bytes)
    (h : (body.getD []).length ≤ 249) (hX : Shows X_arr2str 256) :
    ∃ f w, getHdr X_arr2str (ofByte c) (body.map ofBytes) = some f ∧
      PayUtil.GetArray f = some w ∧ WritesRequest (.writeArray w) := by
  have hmax : (body.getD []).length ≤ maxBody := h.trans (by decide)
  have hshows : Shows X_arr2str ((body.getD []).length + 7) := hX.mono (by omega)
  refine ⟨_, frame c (body.getD []), getHdr_ofBytes c body hmax hshows, ?_, fun eol => ?_⟩
  · rw [Conv.GetArray_ofBytes]
  · have hfits : fits (frame c (body.getD [])) = true := by
      rw [fits, length_frame]
      exact decide_eq_true (by omega)
    have hreq := request_frame (r := ⟨c, body.getD [], hmax⟩) hfits
    have hframe : Request.frame ⟨c, body.getD [], hmax⟩ = frame c (body.getD []) := rfl
    rw [hframe] at hreq
    rw [hreq, Call.output, if_pos hfits]
    rfl

def CMD.Set_Device_Information_Request : SQInteger := 0x1A

/-- A script character is its code. -/
def setTermBoutRate (X_arr2str : Arr2str) (rate : SQInteger) : Option SQArray :=
  let body := ofInts [0x51, 0x1, 8]
  let body :=
    if rate = 1800 then body.set 2 (.integer 0x30)
    else if rate = 2400 then body.set 2 (.integer 0x31)
    else if rate = 9600 then body.set 2 (.integer 0x33)
    else if rate = 38400 then body.set 2 (.integer 0x36)
    else if rate = 57600 then body.set 2 (.integer 0x37)
    else if rate = 115200 then body.set 2 (.integer 0x38)
    else body
  getHdr X_arr2str CMD.Set_Device_Information_Request (some body)

/-- The rates that have a code of their own. -/
def rates : List SQInteger := [1800, 2400, 9600, 38400, 57600, 115200]

/-- The one byte of the request that tells the rate. -/
def rateCode (rate : SQInteger) : Byte :=
  if rate = 1800 then 0x30
  else if rate = 2400 then 0x31
  else if rate = 9600 then 0x33
  else if rate = 38400 then 0x36
  else if rate = 57600 then 0x37
  else if rate = 115200 then 0x38
  else 8

theorem setTermBoutRate_eq (X_arr2str : Arr2str) (rate : SQInteger) :
    setTermBoutRate X_arr2str rate =
      getHdr X_arr2str (ofByte 0x1A) (some (ofBytes [0x51, 0x1, rateCode rate])) := by
  unfold setTermBoutRate rateCode
  split_ifs <;> rfl

theorem rateCode_of_not_mem {rate : SQInteger} (h : rate ∉ rates) : rateCode rate = 8 := by
  simp only [rates, List.mem_cons, List.not_mem_nil, or_false, not_or] at h
  obtain ⟨h1, h2, h3, h4, h5, h6⟩ := h
  rw [rateCode, if_neg h1, if_neg h2, if_neg h3, if_neg h4, if_neg h5, if_neg h6]

/-- The rate that a code stands for. -/
def rateOf (code : Byte) : Option SQInteger := rates.find? fun rate => rateCode rate == code

theorem rateOf_rateCode (rate : SQInteger) :
    rateOf (rateCode rate) = if rate ∈ rates then some rate else none := by
  split
  · next h =>
    simp only [rates, List.mem_cons, List.not_mem_nil, or_false] at h
    rcases h with rfl | rfl | rfl | rfl | rfl | rfl <;> rfl
  · next h =>
    rw [rateCode_of_not_mem h]
    rfl

def rateRequest (rate : SQInteger) : Request :=
  ⟨0x1A, [0x51, 0x1, rateCode rate], show 3 ≤ maxBody by decide⟩

/-- **The six rates of the table are told apart, and all others are one**: the
request for a rate is read back as one request, and two requests are the same only
for the same rate or for two that are not in the table. -/
theorem setTermBoutRate_tells (X_arr2str : Arr2str) (hX : Shows X_arr2str 10)
    (rate : SQInteger) :
    (∃ f w r, setTermBoutRate X_arr2str rate = some f ∧ PayUtil.GetArray f = some w ∧
      payCode.decAll w = ([r], []) ∧ r.command = 0x1A ∧
      r.body.getLast?.bind rateOf = if rate ∈ rates then some rate else none) ∧
    ∀ rate', setTermBoutRate X_arr2str rate = setTermBoutRate X_arr2str rate' ↔
      rate = rate' ∨ (rate ∉ rates ∧ rate' ∉ rates) := by
  have hframe : ∀ rate, setTermBoutRate X_arr2str rate =
      some (ofBytes (Request.frame (rateRequest rate))) := by
    intro rate
    rw [setTermBoutRate_eq]
    exact getHdr_ofBytes 0x1A (some [0x51, 0x1, rateCode rate]) (rateRequest rate).fits hX
  refine ⟨⟨_, (rateRequest rate).frame, rateRequest rate, hframe rate, ?_, ?_, rfl,
    rateOf_rateCode rate⟩, fun rate' => ⟨fun heq => ?_, ?_⟩⟩
  · rw [Conv.GetArray_ofBytes]
  · have hread := payCode.decAll_stream [rateRequest rate] payCode.dec_nil
    rwa [Code.stream_cons, Code.stream_nil, List.append_nil, List.append_nil] at hread
  · rw [hframe, hframe] at heq
    have hsame : (rateRequest rate).frame <+: (rateRequest rate').frame := by
      rw [ofBytes_inj (Option.some.inj heq)]
    obtain ⟨-, hbody⟩ := frame_prefix (rateRequest rate).fits (rateRequest rate').fits hsame
    have hcode : rateCode rate = rateCode rate' := by simpa [rateRequest] using hbody
    have hrate := congrArg rateOf hcode
    rw [rateOf_rateCode, rateOf_rateCode] at hrate
    by_cases hin : rate ∈ rates
    · rw [if_pos hin] at hrate
      split at hrate
      · exact .inl (Option.some.inj hrate)
      · cases hrate
    · rw [if_neg hin] at hrate
      split at hrate
      · cases hrate
      · next hout => exact .inr ⟨hin, hout⟩
  · rintro (rfl | ⟨hin, hout⟩)
    · rfl
    · rw [setTermBoutRate_eq, setTermBoutRate_eq, rateCode_of_not_mem hin, rateCode_of_not_mem hout]

theorem setTermBoutRate_tells_9600 :
    (∃ f w r, setTermBoutRate main_arr2str 9600 = some f ∧ PayUtil.GetArray f = some w ∧
      payCode.decAll w = ([r], []) ∧ r.command = 0x1A ∧
      r.body.getLast?.bind rateOf = if 9600 ∈ rates then some 9600 else none) ∧
    ∀ rate', setTermBoutRate main_arr2str 9600 = setTermBoutRate main_arr2str rate' ↔
      9600 = rate' ∨ (9600 ∉ rates ∧ rate' ∉ rates) :=
  setTermBoutRate_tells main_arr2str (shows_main (by decide)) 9600

end Autocom.PayStream
