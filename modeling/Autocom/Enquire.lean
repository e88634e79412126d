import Autocom.HexText

/-! # `enquire` in `include.sss`

It sends a command and looks at the reply, a Squirrel array of bytes or null. The
error byte stands at index 5, and the guard lets a reply of five bytes through.
`none` is a script error: an index that does not exist, or a function that fails.
`print`, and `checkError` which only prints, are left out. -/
namespace Autocom.Enquire
open Autocom PayUtil

/-! ## The function -/

/-! The file's `local`s. -/
def CMD_IDX : Nat := 4
def ERR_IDX : Nat := 5
def HDR_LEN : Nat := 6

/-- The published script builds no more than the first byte. -/
def buildMsg (_comand : SQObject) (_body : Option SQArray) : SQArray := ofInts [0x2]

/-- `Arr2str` is not defined in the repository, and `serial` is what
`serial.readmin(5,to)` answers once the header has been written. -/
def enquire (Arr2str : SQArray → Option Bytes) (serial : SQArray → Option SQArray)
    (command response : SQObject) (body : Option SQArray) : Option (Option SQArray) :=
  let header := buildMsg command body
  match serial header with
  | none => some none
  | some out =>
    if out.length = 0 then some (some out) else do
      let _ ← Arr2str out
      if out.length ≥ 5 then do
        let _len ← enquireLen out
        let cmd ← out[CMD_IDX]?
        if cmd = response then do
          let err ← out[ERR_IDX]?
          let out := if err = .integer 255 then out.set ERR_IDX (.integer 0) else out
          let _err ← out[ERR_IDX]?
          return some out
        else do
          let _err ← out[ERR_IDX]?
          let _ ← Arr2str out
          return some out
      else return some out

/-- The reply as it is to be returned: under the expected command the error byte
255 reads 0. -/
def patched (response : SQObject) (reply : Bytes) : SQArray :=
  let out := ofBytes reply
  if out[CMD_IDX]? = some response ∧ out[ERR_IDX]? = some (.integer 255) then
    out.set ERR_IDX (.integer 0)
  else out

/-! ## Replies by their length -/

theorem getElem_ofBytes (bs : Bytes) (i : Nat) :
    (ofBytes bs)[i]? = bs[i]?.map fun b => .integer (ofByte b) := by
  simp [ofBytes, ofInts, Function.comp_def]

theorem getElem_of_lt {bs : Bytes} {i : Nat} (h : i < bs.length) :
    ∃ v, (ofBytes bs)[i]? = some (.integer v) :=
  ⟨ofByte bs[i], by rw [getElem_ofBytes, List.getElem?_eq_getElem h]; rfl⟩

/-- Up to five bytes there is no error byte. -/
theorem getElem_err {bs : Bytes} (h : bs.length ≤ ERR_IDX) : (ofBytes bs)[ERR_IDX]? = none := by
  rw [getElem_ofBytes, List.getElem?_eq_none h]
  rfl

theorem patched_short {response : SQObject} {bs : Bytes} (h : bs.length ≤ ERR_IDX) :
    patched response bs = ofBytes bs := by
  rw [patched]
  simp [getElem_err h]

theorem enquireLen_isSome {bs : Bytes} (h : 3 ≤ bs.length) : (enquireLen (ofBytes bs)).isSome := by
  obtain ⟨hi, hhi⟩ := getElem_of_lt (show 1 < bs.length by omega)
  obtain ⟨lo, hlo⟩ := getElem_of_lt (show 2 < bs.length by omega)
  simp [enquireLen, intAt, hhi, hlo]

section
variable {Arr2str : SQArray → Option Bytes} {serial : SQArray → Option SQArray}
  {command response : SQObject} {body : Option SQArray}

theorem enquire_null (h : serial (buildMsg command body) = none) :
    enquire Arr2str serial command response body = some none := by
  simp [enquire, h]

/-- Too short for a command: nothing is looked at. -/
theorem enquire_short {bs : Bytes} (h : serial (buildMsg command body) = some (ofBytes bs))
    (htext : (Arr2str (ofBytes bs)).isSome) (hlen : bs.length < 5) :
    enquire Arr2str serial command response body = some (some (ofBytes bs)) := by
  obtain ⟨text, htext⟩ := Option.isSome_iff_exists.mp htext
  unfold enquire
  simp only [h, length_ofBytes, htext]
  split
  · rfl
  · rw [Option.bind_eq_bind, Option.bind_some, if_neg (by omega)]
    rfl

/-- **Five bytes** have no error byte, whatever the command. -/
theorem enquire_five {bs : Bytes} (h : serial (buildMsg command body) = some (ofBytes bs))
    (hlen : bs.length = 5) : enquire Arr2str serial command response body = none := by
  unfold enquire
  simp only [h, length_ofBytes, hlen, getElem_err hlen.le]
  cases Arr2str (ofBytes bs) with
  | none => rfl
  | some text =>
    cases enquireLen (ofBytes bs) with
    | none => rfl
    | some len =>
      cases (ofBytes bs)[CMD_IDX]? with
      | none => rfl
      | some cmd => by_cases hcmd : cmd = response <;> simp [hcmd]

/-- From six bytes on every index is there. -/
theorem enquire_long {bs : Bytes} (h : serial (buildMsg command body) = some (ofBytes bs))
    (htext : (Arr2str (ofBytes bs)).isSome) (hlen : HDR_LEN ≤ bs.length) :
    enquire Arr2str serial command response body = some (some (patched response bs)) := by
  have hsix : 6 ≤ bs.length := hlen
  obtain ⟨text, htext⟩ := Option.isSome_iff_exists.mp htext
  obtain ⟨len, hlength⟩ := Option.isSome_iff_exists.mp
    (enquireLen_isSome (show 3 ≤ bs.length by omega))
  obtain ⟨cmd, hcmd⟩ := getElem_of_lt (show CMD_IDX < bs.length from hsix.trans' (by decide))
  obtain ⟨err, herr⟩ := getElem_of_lt (show ERR_IDX < bs.length from hsix)
  -- what is written over the error byte is read again
  have hset : ((ofBytes bs).set ERR_IDX (.integer 0))[ERR_IDX]? = some (.integer 0) :=
    List.getElem?_set_self (by rwa [length_ofBytes])
  have hnonempty : bs.length ≠ 0 := by omega
  have hfive : bs.length ≥ 5 := by omega
  unfold enquire patched
  simp only [h, length_ofBytes, htext, hlength, hcmd, herr, if_neg hnonempty, if_pos hfive,
    Option.bind_eq_bind, Option.bind_some, Option.some.injEq]
  by_cases hresponse : SQObject.integer cmd = response
  · by_cases hoff : SQObject.integer err = .integer 255
    · simp only [if_pos hresponse, if_pos hoff, hset, if_pos (And.intro hresponse hoff),
        Option.bind_some, Option.pure_def]
    · have hnot : ¬ (SQObject.integer cmd = response ∧ SQObject.integer err = .integer 255) :=
        fun hand => hoff hand.2
      simp only [if_pos hresponse, if_neg hoff, herr, if_neg hnot, Option.bind_some,
        Option.pure_def]
  · have hnot : ¬ (SQObject.integer cmd = response ∧ SQObject.integer err = .integer 255) :=
      fun hand => hresponse hand.1
    simp only [if_neg hresponse, if_neg hnot, Option.pure_def]

end

/-- **A reply is returned as it is owed** unless it has exactly five bytes. -/
theorem enquire_iff (Arr2str : SQArray → Option Bytes) (serial : SQArray → Option SQArray)
    (command response : SQObject) (body : Option SQArray) (reply : Option Bytes)
    (hreply : serial (buildMsg command body) = reply.map ofBytes)
    (hArr2str : ∀ bs, reply = some bs → (Arr2str (ofBytes bs)).isSome) :
    enquire Arr2str serial command response body = some (reply.map (patched response)) ↔
      reply.map List.length ≠ some 5 := by
  cases reply with
  | none => exact iff_of_true (enquire_null hreply) (by simp)
  | some bs =>
    have htext := hArr2str bs rfl
    rw [Option.map_some, Option.map_some, ne_eq, Option.some.injEq]
    rcases lt_trichotomy bs.length 5 with hlt | heq | hgt
    · refine iff_of_true ?_ hlt.ne
      rw [enquire_short hreply htext hlt, patched_short hlt.le]
    · refine iff_of_false ?_ (not_not.mpr heq)
      rw [enquire_five hreply heq]
      simp
    · exact iff_of_true (enquire_long hreply htext hgt) hgt.ne'

/-- What `Arr2str` gives for bytes. -/
def hexText (a : SQArray) : Option Bytes := (GetArray a).map Conv.toString

/-- `02 00 05 10 79`: the reply up to its command. -/
def cut : Bytes := [0x02, 0x00, 0x05, 0x10, 0x79]

/-- The terminal's answer is split before the error byte. -/
theorem five_bytes_fail :
    enquire hexText (fun _ => some (ofBytes cut)) (.integer 0x19) (.integer 0x79) none = none ∧
    enquire hexText (fun _ => some (ofBytes cut)) (.integer 0x19) (.integer 0x79) none ≠
      some ((some cut).map (patched (.integer 0x79))) := by
  have hfail : enquire hexText (fun _ => some (ofBytes cut)) (.integer 0x19) (.integer 0x79)
      none = none := enquire_five rfl rfl
  refine ⟨hfail, ?_⟩
  rw [hfail]
  simp

/-- With the error byte 255. -/
theorem enquire_iff_six : enquire hexText (fun _ => some (ofBytes (cut ++ [0xFF])))
      (.integer 0x19) (.integer 0x79) none =
        some ((some (cut ++ [0xFF])).map (patched (.integer 0x79))) ↔
      (some (cut ++ [0xFF])).map List.length ≠ some 5 :=
  enquire_iff hexText _ (.integer 0x19) (.integer 0x79) none (some (cut ++ [0xFF])) rfl
    fun _ _ => by simp [hexText, Conv.GetArray_ofBytes]

end Autocom.Enquire
