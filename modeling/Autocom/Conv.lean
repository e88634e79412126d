import Autocom.Bytes
import Mathlib.Data.Nat.Digits.Defs

/-! # Text conversions of `main.cpp`

`toBinary` reads a string two characters at a time with `sscanf(tmp,"%02X",&val)`
into one `val` that it never initialises. -/
namespace Autocom.Conv
open Autocom

def hexDigit (c : Byte) : Option Nat :=
  if 0x30 ≤ c ∧ c ≤ 0x39 then some (c.toNat - 0x30)
  else if 0x41 ≤ c ∧ c ≤ 0x46 then some (c.toNat - 0x41 + 10)
  else if 0x61 ≤ c ∧ c ≤ 0x66 then some (c.toNat - 0x61 + 10)
  else none

def isSpace (c : Byte) : Bool := c == 0x20 || (0x09 ≤ c && c ≤ 0x0d)

/-- `%02X` on what is left after white space, at most two characters: an
optional sign, then hex digits. A bare `0x` is the start of a number and no
number, which by the C standard is a matching failure; glibc converts it to 0. -/
def hexItem : Bytes → Option (BitVec 32)
  | [] => none
  | [a] => (hexDigit a).map (BitVec.ofNat 32)
  | a :: b :: _ =>
    if a = 0x2b then (hexDigit b).map (BitVec.ofNat 32)
    else if a = 0x2d then (hexDigit b).map fun d => -BitVec.ofNat 32 d
    else match hexDigit a, hexDigit b with
      | some hi, some lo => some (BitVec.ofNat 32 (16 * hi + lo))
      | some hi, none =>
        if a = 0x30 ∧ (b = 0x78 ∨ b = 0x58) then none else some (BitVec.ofNat 32 hi)
      | none, _ => none

/-- The value `sscanf(tmp,"%02X",&val)` stores, `none` when it stores nothing. -/
def sscanf02X (tmp : Bytes) : Option (BitVec 32) := hexItem (tmp.dropWhile isSpace)

/-- The loop of `toBinary`, `val` carried from pair to pair. -/
def toBinaryLoop : BitVec 32 → Bytes → Bytes
  | _, [] => []
  | val, [a] => [((sscanf02X [a]).getD val).setWidth 8]
  | val, a :: b :: rest =>
    let val := (sscanf02X [a, b]).getD val
    val.setWidth 8 :: toBinaryLoop val rest

/-- `val` is what the uninitialised local holds. -/
def toBinary (val : BitVec 32) (string : CString) : Bytes := toBinaryLoop val string.bytes

/-! ## Writing -/

def upperDigit (d : Nat) : Byte :=
  if d < 10 then BitVec.ofNat 8 (0x30 + d) else BitVec.ofNat 8 (0x41 + (d - 10))

/-- `sprintf` with `%0wX`: the digits of the value read as unsigned, zeros in
front up to the width. -/
def sprintfX (width : Nat) (v : BitVec 32) : Bytes :=
  let digits := (Nat.digits 16 v.toNat).reverse.map upperDigit
  List.replicate (width - digits.length) 0x30 ++ digits

/-- `int(binary[i])` under `%02X`. -/
def duplet (b : Byte) : Bytes := sprintfX 2 (b.setWidth 32)

def toString (binary : Bytes) : Bytes := binary.flatMap duplet

end Autocom.Conv
