import Autocom.Bytes
import Autocom.Lib.XorSum

/-! # The payment frames of `payutil.sss`

The Squirrel functions that build a request frame (`getHdr`, `calcLrc`) and
read a reply (`getCommand`, `getError`), on Squirrel arrays. An integer is 64
bits wide, two's complement, and `>>` on it is the arithmetic shift. -/
namespace Autocom.PayUtil
open Autocom.Lib

abbrev SQInteger := BitVec 64

/-- The values these scripts put in arrays. -/
inductive SQObject
  | null
  | integer (v : SQInteger)
  deriving DecidableEq

abbrev SQArray := List SQObject

/-- `array.len()`. -/
def len (a : SQArray) : SQInteger := BitVec.ofNat 64 a.length

def ofInts (xs : List SQInteger) : SQArray := xs.map .integer

/-- A byte is a script integer in 0..255. -/
def ofByte (b : Byte) : SQInteger := b.setWidth 64

def ofBytes (bs : Bytes) : SQArray := ofInts (bs.map ofByte)

@[simp] theorem length_ofInts (xs : List SQInteger) : (ofInts xs).length = xs.length := by
  simp [ofInts]

@[simp] theorem length_ofBytes (bs : Bytes) : (ofBytes bs).length = bs.length := by
  simp [ofBytes]

theorem ofByte_inj {a b : Byte} (h : ofByte a = ofByte b) : a = b := by
  have := congrArg (BitVec.setWidth 8) h
  simpa [ofByte] using this

theorem ofBytes_inj {a b : Bytes} (h : ofBytes a = ofBytes b) : a = b := by
  have hinj : Function.Injective (SQObject.integer ∘ ofByte) :=
    fun x y hxy => ofByte_inj (SQObject.integer.inj hxy)
  exact List.map_injective_iff.mpr hinj (by simpa [ofBytes, ofInts] using h)

/-! ## The functions of the script -/

def calcLrc (barray : SQArray) : SQInteger :=
  barray.foldl (fun lrc o => match o with
    | .integer v => lrc ^^^ v
    | .null => lrc) 0

/-- `X.arr2str`, where no file binds `X`: what the call leaves of the array that it
gets, `none` when it fails. Nothing reads its text. -/
abbrev Arr2str := SQArray → Option SQArray

/-- `X.arr2str` returns on arrays of up to `n` integers and leaves them alone. -/
def Shows (X_arr2str : Arr2str) (n : Nat) : Prop :=
  ∀ xs : List SQInteger, xs.length ≤ n → X_arr2str (ofInts xs) = some (ofInts xs)

theorem Shows.mono {X_arr2str : Arr2str} {m n : Nat} (h : Shows X_arr2str n) (hmn : m ≤ n) :
    Shows X_arr2str m := fun xs hxs => h xs (hxs.trans hmn)

/-- `X.arr2str` leaves the arrays alone on which it returns. -/
def Spares (X_arr2str : Arr2str) : Prop := ∀ a a', X_arr2str a = some a' → a' = a

/-- The header fields are written into `MESSAGE`, which starts at the length;
`STX` is put in front only at the end. -/
def getHdr (X_arr2str : Arr2str) (comand : SQInteger) (body : Option SQArray) :
    Option SQArray :=
  let STX : SQArray := ofInts [0x2]
  --          Lhi  Llo  Ver   Cmd  Err
  let MESSAGE := ofInts [0x0, 0x0, 0x10, 0x0, 0x0]
  let MESSAGE := MESSAGE.set 3 (.integer comand)
  let length := len MESSAGE
  let (length, MESSAGE) := match body with
    | some b => (length + len b, MESSAGE ++ b)
    | none => (length, MESSAGE)
  let MESSAGE := MESSAGE.set 0 (.integer (length.sshiftRight 8))
  let MESSAGE := MESSAGE.set 1 (.integer (length &&& 0xFF))
  let LRC := calcLrc MESSAGE
  let STX := STX ++ (MESSAGE ++ [.integer LRC])
  X_arr2str STX

def getCommand (message : SQArray) : SQObject :=
  if h : message.length > 3 then message[3] else .integer 0

def getError (message : SQArray) : SQObject :=
  if h : message.length > 4 then message[4] else .integer 0

/-! The entries of the table `CMD` that are used here. -/
def CMD.Sale_Transaction_Request : SQInteger := 0x12
def CMD.Get_Device_Information_Response : SQInteger := 0x79

def saleTransacrionReq (X_arr2str : Arr2str) (ammount : SQInteger) : Option SQArray :=
  let body := ofInts [0x0, 0x0, 0x0, 0x0, 0x11]
  let body := body.set 0 (.integer (ammount.sshiftRight 24 &&& 0xFF))
  let body := body.set 1 (.integer (ammount.sshiftRight 16 &&& 0xFF))
  let body := body.set 2 (.integer (ammount.sshiftRight 8 &&& 0xFF))
  let body := body.set 3 (.integer (ammount &&& 0xFF))
  getHdr X_arr2str CMD.Sale_Transaction_Request (some body)

/-- The operand of a bit operation: an index out of range or a null is an error. -/
def intAt (a : SQArray) (i : Nat) : Option SQInteger :=
  match a[i]? with
  | some (.integer v) => some v
  | _ => none

/-- `enquire` in `include.sss`: `local len = ((out[1]<<8) | out[2])`. -/
def enquireLen (out : SQArray) : Option SQInteger := do
  let hi ← intAt out 1
  let lo ← intAt out 2
  return (hi <<< 8) ||| lo

/-- `Sqrat::Array::GetArray` into `uint8_t`: `popAsInt` casts an integer to the
element type and throws on a null. -/
def popAsInt : SQObject → Option Byte
  | .integer v => some (v.setWidth 8)
  | .null => none

def GetArray (a : SQArray) : Option Bytes := a.mapM popAsInt

/-! ## One equation for each function -/

theorem calcLrc_ofInts (xs : List SQInteger) : calcLrc (ofInts xs) = xorSum xs := by
  rw [calcLrc, ofInts, List.foldl_map, foldl_xor, BitVec.ofNat_eq_ofNat, BitVec.zero_xor]

theorem GetArray_ofInts (xs : List SQInteger) :
    GetArray (ofInts xs) = some (xs.map (BitVec.setWidth 8)) := by
  have h : popAsInt ∘ SQObject.integer = fun v => pure (BitVec.setWidth 8 v) := rfl
  rw [GetArray, ofInts, List.mapM_map, h, List.mapM_pure]
  rfl

end Autocom.PayUtil
