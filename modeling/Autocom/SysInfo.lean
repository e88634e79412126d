import Autocom.HexText

/-! # `sysinfo` in `payutil.sss`

It asks the terminal for its device information and turns the reply into text.
The reply is a Squirrel array of bytes, where `Device::read` may have left
nulls. `none` is a script error, which ends the call. No file binds `X`: what it
is called for here is the text of a field, so `X.arr2str` is taken to be the
`arr2str` of `main.cpp`. -/
namespace Autocom.SysInfo
open Autocom Autocom.PayUtil

/-! ## The functions of the script -/

/-- What `checkError` is called with. -/
inductive SQValue
  | integer (v : SQInteger)
  | array (a : SQArray)
  deriving DecidableEq

/-- The cases of the `switch` that return `err` itself. -/
def errorCodes : List SQInteger :=
  [0x01, 0x02, 0x03, 0x04, 0x05, 0x06, 0x20, 0x21, 0x30, 0x31, 0x32, 0x33, 0x34, 0x35, 0x36,
    0x37, 0x42, 0x43, 0x44, 0x45, 0x46, 0x47]

/-- `none` is the null of a function that ends without `return`; a value that is
no number equals no case. -/
def checkError : SQValue → Option SQInteger
  | .integer err => if err = 0xFF then some 0 else if err ∈ errorCodes then some err else none
  | .array _ => none

/-- An array of `Device::read` as the script sees it. -/
def ofRead (a : List (Option Byte)) : SQArray :=
  a.map fun o => match o with
    | some b => .integer (ofByte b)
    | none => .null

/-- `body.slice(sidx, eidx)`. -/
def slice (body : List (Option Byte)) (sidx eidx : Nat) : Option (List (Option Byte)) :=
  if sidx ≤ eidx ∧ eidx ≤ body.length then some ((body.take eidx).drop sidx) else none

/-- `ret += s`: a null turns into text first. -/
def cat (nullText : Bytes) (ret : Option Bytes) (s : Bytes) : Option Bytes :=
  some (ret.getD nullText ++ s)

/-- The length at `i` and the text of the bytes behind it. -/
def field (body : List (Option Byte)) (i : Nat) : Option (Nat × Bytes) := do
  let len ← body[i]?
  -- a null is no operand of `i+len`
  let len ← len
  let bytes ← slice body (i + 1) (i + 1 + len.toNat)
  let text ← Conv.arr2str (ofRead bytes)
  return (len.toNat, text)

/-- `":"` and `" Some error ! \n"`. -/
def colon : Bytes := [0x3a]
def someError : Bytes :=
  [0x20, 0x53, 0x6f, 0x6d, 0x65, 0x20, 0x65, 0x72, 0x72, 0x6f, 0x72, 0x20, 0x21, 0x20, 0x0a]

/-- The loop `for(; i<tags;)`. -/
def parse (nullText : Bytes) (body : List (Option Byte)) (tags i : Nat) (ret : Option Bytes) :
    Option (Option Bytes) :=
  if i < tags then
    match body[i]? with
    | none => none
    | some tagul =>
      if tagul = some 1 then
        match field body (i + 1) with
        | none => none
        | some (seriallen, text) =>
          parse nullText body tags (i + 2 + seriallen) (cat nullText ret (text ++ colon))
      else if tagul = some 2 then
        match field body (i + 1) with
        | none => none
        | some (appverlen, text) =>
          parse nullText body tags (i + 2 + appverlen) (cat nullText ret text)
      else some (cat nullText ret someError)
  else some ret
termination_by tags - i

/-- What `sysinfo` returns for the reply `resp`; the value `none` inside is null. -/
def sysinfo (nullText : Bytes) (resp : List (Option Byte)) : Option (Option Bytes) :=
  if checkError (.array (ofRead resp)) = some 0 then
    if getCommand (ofRead resp) = .integer CMD.Get_Device_Information_Response then
      match slice resp 5 resp.length with
      | none => none
      | some body =>
        match body[0]? with
        | none => none
        -- an integer is never less than null
        | some tags => parse nullText body (tags.elim 0 BitVec.toNat) 1 none
    else some none
  else some none

/-! ## The replies of the terminal -/

inductive Tag
  | serialNo
  | appVersion
  deriving DecidableEq

def Tag.byte : Tag → Byte
  | .serialNo => 1
  | .appVersion => 2

/-- One entry of the reply; its length fits a byte. -/
structure Entry where
  tag : Tag
  bytes : Bytes
  short : bytes.length < 256

def Entry.encode (e : Entry) : Bytes := e.tag.byte :: BitVec.ofNat 8 e.bytes.length :: e.bytes

/-- The reply as it is received: header, count, entries and LRC. -/
def reply (lenHi lenLo version : Byte) (entries : List Entry) (lrc : Byte) : Bytes :=
  [0x02, lenHi, lenLo, version, 0x79, 0xFF, BitVec.ofNat 8 entries.length] ++
    entries.flatMap Entry.encode ++ [lrc]

/-- The text has the bytes of each entry in hex, in order, and between them
nothing that reads as a hex digit. -/
structure Reports (entries : List Entry) (result : Option (Option Bytes)) : Prop where
  made : ∃ (lead : Bytes) (seps : List Bytes), seps.length = entries.length ∧
    (∀ sep ∈ lead :: seps, ∀ c ∈ sep, Conv.isxdigit c = false) ∧
    result = some (some (lead ++
      (List.zipWith (fun e sep => Conv.toString e.bytes ++ sep) entries seps).flatten))

/-! ## What `sysinfo` returns -/

/-- **`sysinfo` returns null whatever it receives**: `checkError` is handed the
array and not its error byte. -/
theorem sysinfo_eq_null (nullText : Bytes) (resp : List (Option Byte)) :
    sysinfo nullText resp = some none := rfl

/-- **No reply is reported.** -/
theorem sysinfo_never_reports (nullText : Bytes) (lenHi lenLo version : Byte)
    (entries : List Entry) (lrc : Byte) : ¬ Reports entries
      (sysinfo nullText ((reply lenHi lenLo version entries lrc).map some)) := by
  rintro ⟨lead, seps, -, -, hresult⟩
  rw [sysinfo_eq_null] at hresult
  cases hresult

/-- A serial number `12 34`. -/
def serial : Entry := ⟨.serialNo, [0x12, 0x34], by decide⟩

theorem serial_not_reported : ¬ Reports [serial]
    (sysinfo [] ((reply 0 0x0b 0x10 [serial] 0x6d).map some)) := by
  rintro ⟨lead, seps, -, -, hresult⟩
  cases hresult

end Autocom.SysInfo
