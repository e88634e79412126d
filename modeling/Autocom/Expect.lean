import Autocom.Bytes
import Mathlib.Data.List.Infix

/-! # Waiting for text: `strwaitt` and `strstr`

Each wait call polls the input buffer until its text occurs in what it has
accumulated or its deadline passes. One turn of a loop is a function of the
accumulator and of the buffer `getIn` hands over; the loops run it over the
polls of the call. What the environment decides in a turn (the clock, `__alive`,
the waiting hook, what has arrived) is given by the poll, and a call whose polls
run out before it ends is still waiting. -/
namespace Autocom.Expect
open Autocom

def SOMESEC : Int := 10000
def TRIMEXPECT : Nat := 16384

/-- `std::regex` and `std::regex_search`: `none` is the `regex_error` that the
constructor throws on an invalid expression. -/
abbrev Regex := Bytes → Option (Bytes → Bool)

/-- What one turn of a wait loop reads: the clock and the hook's answer in the
loop condition, and the clock once more in the body. -/
structure Turn where
  tick : Int
  hook : Int
  tick' : Int
  deriving DecidableEq

/-- `::tick_count() < expire && __alive && _notifyWaiting()==0`. -/
def Turn.go (t : Turn) (alive : Bool) (expire : Int) : Bool :=
  decide (t.tick < expire) && alive && t.hook == 0

/-- `_accum.substr(_accum.length()-n)` once `_accum` is over `TRIMEXPECT`. The
offset is unsigned: for `n` past the length it wraps and `substr` throws. -/
def trim (n : Nat) (accum : Bytes) : Option Bytes :=
  if accum.length > TRIMEXPECT then
    if n ≤ accum.length then some (accum.drop (accum.length - n)) else none
  else some accum

/-! ## One turn -/

/-- A pattern that starts with `?` is a regular expression. -/
def matchExpr (regex : Regex) (expr : CString) (accum : Bytes) : Option Bool :=
  if expr.bytes.head? = some 0x3f then (regex expr.bytes.tail).map (· accum)
  else some (decide (expr.bytes <:+: accum))

inductive Verdict
  | found (accum : Bytes)
  | more (accum : Bytes)
  | thrown
  deriving DecidableEq

/-- The body of the loop of `strwaitt` when `getIn` returned `buf`. -/
def strwaittBody (regex : Regex) (expr : CString) (accum buf : Bytes) : Verdict :=
  let accum := accum ++ cstr buf
  match matchExpr regex expr accum with
  | none => .thrown
  | some true => .found accum
  | some false =>
    match trim expr.bytes.length accum with
    | some trunc => .more trunc
    | none => .thrown

/-- The `for` loop of `strstr`: the token lengths summed so far, and the first
token that occurs. -/
def scan : List CString → Bytes → Nat → Nat × Option CString
  | [], _, length => (length, none)
  | token :: rest, accum, length =>
    let length := length + token.bytes.length
    if token.bytes <:+: accum then (length, some token) else scan rest accum length

/-- The body of the loop of `strstr`: the token found, and the accumulator
(`none` when `substr` throws). -/
def strstrBody (strings : List CString) (accum buf : Bytes) : Option CString × Option Bytes :=
  let accum := accum ++ cstr buf
  let (length, hit) := scan strings accum 0
  (hit, trim length accum)

/-! ## The calls -/

/-- A turn together with `__alive` and what is pending in `_in` when it looks. -/
structure Poll extends Turn where
  alive : Bool
  chunk : Bytes
  deriving DecidableEq

inductive Outcome (α : Type)
  | ret (v : α)
  | thrown
  | waiting
  deriving DecidableEq

/-- How a call ended, the accumulator it left, and the buffers it drained. -/
structure Result (α : Type) where
  out : Outcome α
  accum : Bytes
  drained : List Bytes
  deriving DecidableEq

def Result.after {α : Type} (buf : Bytes) (r : Result α) : Result α :=
  { r with drained := buf :: r.drained }

@[simp] theorem Result.after_out {α : Type} (buf : Bytes) (r : Result α) :
    (r.after buf).out = r.out := rfl
@[simp] theorem Result.after_drained {α : Type} (buf : Bytes) (r : Result α) :
    (r.after buf).drained = buf :: r.drained := rfl

def strwaittLoop (regex : Regex) (expr : CString) (infinite : Bool) :
    Int → Bytes → List Poll → Result Int
  | _, accum, [] => ⟨.waiting, accum, []⟩
  | expire, accum, p :: ps =>
    if p.go p.alive expire then
      let expire := if infinite then p.tick' + SOMESEC else expire
      if p.chunk = [] then strwaittLoop regex expr infinite expire accum ps
      else match strwaittBody regex expr accum p.chunk with
        | .found accum => ⟨.ret 0, accum, [p.chunk]⟩
        | .more accum => (strwaittLoop regex expr infinite expire accum ps).after p.chunk
        | .thrown => ⟨.thrown, accum, [p.chunk]⟩
    else ⟨.ret 1, accum, []⟩

/-- A timeout of -1 waits for ever: the deadline moves with the clock. -/
def strwaitt (regex : Regex) (expr : CString) (to_ start : Int) (polls : List Poll) :
    Result Int :=
  if to_ = -1 then strwaittLoop regex expr true (start + SOMESEC) [] polls
  else strwaittLoop regex expr false (start + to_) [] polls

/-- `strwait` is `strwaitt` with the device's own `_tout`. -/
def strwait (regex : Regex) (expr : CString) (tout start : Int) (polls : List Poll) :
    Result Int :=
  strwaitt regex expr tout start polls

/-- The static `ret` of `strstr` is passed in and handed back. -/
def strstrLoop (strings : List CString) :
    Int → Bytes → Bytes → List Poll → Result Bytes × Bytes
  | _, accum, ret, [] => (⟨.waiting, accum, []⟩, ret)
  | expire, accum, ret, p :: ps =>
    if p.go p.alive expire then
      if p.chunk = [] then strstrLoop strings expire accum ret ps
      else
        let (hit, trunc) := strstrBody strings accum p.chunk
        -- a hit sets `ret` and ends the loop at its next test
        let (ret, expire) := match hit with
          | some token => (token.bytes, p.tick')
          | none => (ret, expire)
        match trunc with
        | some accum =>
          let (r, ret) := strstrLoop strings expire accum ret ps
          (r.after p.chunk, ret)
        | none => (⟨.thrown, accum, [p.chunk]⟩, ret)
    else (⟨.ret ret, accum, []⟩, ret)

def strstr (strings : List CString) (tout start : Int) (ret : Bytes) (polls : List Poll) :
    Result Bytes × Bytes :=
  strstrLoop strings (start + tout) [] ret polls

/-! ## One turn in one equation -/

/-- The rest of `strwaitt` once `getIn` has returned `buf`. -/
def afterFetch (regex : Regex) (expr : CString) (infinite : Bool) (expire : Int)
    (accum buf : Bytes) (polls : List Poll) : Result Int :=
  match strwaittBody regex expr accum buf with
  | .found accum => ⟨.ret 0, accum, [buf]⟩
  | .more accum => (strwaittLoop regex expr infinite expire accum polls).after buf
  | .thrown => ⟨.thrown, accum, [buf]⟩

theorem strwaittLoop_fetch {regex : Regex} {expr : CString} {infinite : Bool} {t : Turn}
    {alive : Bool} {expire : Int} {accum buf : Bytes} (polls : List Poll)
    (hgo : t.go alive expire = true) (hbuf : buf ≠ []) :
    strwaittLoop regex expr infinite expire accum (⟨t, alive, buf⟩ :: polls) =
      afterFetch regex expr infinite (if infinite then t.tick' + SOMESEC else expire) accum buf
        polls := by
  unfold strwaittLoop
  rw [if_pos hgo]
  simp only [if_neg hbuf]
  rfl

/-- The rest of `strstr` once `getIn` has returned `buf` and, for a hit, the
clock has been read. -/
def afterScan (strings : List CString) (tick' expire : Int) (accum ret buf : Bytes)
    (polls : List Poll) : Result Bytes × Bytes :=
  let (hit, trunc) := strstrBody strings accum buf
  let ret := (hit.map CString.bytes).getD ret
  match trunc with
  | some accum =>
    let (r, ret) := strstrLoop strings (if hit.isSome then tick' else expire) accum ret polls
    (r.after buf, ret)
  | none => (⟨.thrown, accum, [buf]⟩, ret)

theorem strstrLoop_scan {strings : List CString} {t : Turn} {tick' : Int} {alive : Bool}
    {expire : Int} {accum ret buf : Bytes} (polls : List Poll) (hgo : t.go alive expire = true)
    (hbuf : buf ≠ []) :
    strstrLoop strings expire accum ret (⟨⟨t.tick, t.hook, tick'⟩, alive, buf⟩ :: polls) =
      afterScan strings tick' expire accum ret buf polls := by
  have hgo' : (Turn.mk t.tick t.hook tick').go alive expire = true := hgo
  unfold strstrLoop afterScan
  rw [if_pos hgo']
  simp only [if_neg hbuf]
  obtain ⟨⟨hit, trunc⟩, hbody⟩ : ∃ r, strstrBody strings accum buf = r := ⟨_, rfl⟩
  rw [hbody]
  cases hit <;> cases trunc <;> rfl

end Autocom.Expect
