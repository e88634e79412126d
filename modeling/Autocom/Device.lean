import Autocom.Conv
import Autocom.Expect
import Autocom.IoData

/-! # The calls of a `Device`

The state of a `Device` object and its calls, cut where the other thread can be
seen: a call starts in one step, then takes one step for each turn of a loop and
for each access to `IoData`. The script thread and a callback on the IO thread
run the same calls. The waiting hook is a script function; what it answers is
part of the turn that asks it, and it makes no call on the device.

The model writes down what no variable of the program keeps: everything queued,
sent, received and drained so far. No branch looks at this log. -/
namespace Autocom
open Autocom.Expect (Regex Turn Verdict SOMESEC TRIMEXPECT strwaittBody strstrBody)

def READMAX : Int := 256

/-- `CRLF` of the Linux build. -/
def CRLF : Bytes := [0x0a]

/-! ## The log -/

/-- A buffer that `getIn` handed to a call, and whether the call read it as text. -/
structure Drain where
  buf : Bytes
  text : Bool
  deriving DecidableEq

/-- What the reader keeps: `gets` and the text waits stop at the first zero byte. -/
def Drain.handed (d : Drain) : Bytes := if d.text then cstr d.buf else d.buf

/-- One finished `writeread(s)`: the text it returned, and counts of bytes, those
received and those drained when `s` was queued, those drained when `gets` ran. -/
structure Reply where
  mark : Nat
  held : Nat
  start : Nat
  text : Bytes
  deriving DecidableEq

structure Log where
  /-- the arguments of `putOut`, in lock order -/
  queued : Bytes
  /-- what went out on the wire -/
  wire : Bytes
  /-- the arguments of the `sendTo` calls that returned 0 -/
  acked : Bytes
  /-- what `recFrom` delivered -/
  received : Bytes
  /-- what `putIn` stored -/
  stored : Bytes
  drained : List Drain
  replies : List Reply
  deriving DecidableEq

def Log.empty : Log := ⟨[], [], [], [], [], [], []⟩

/-- The bytes drained so far, in order. -/
def Log.taken (l : Log) : Bytes := l.drained.flatMap Drain.buf

/-! ## The object -/

/-- `pc` is `_pc`: null, or a `SerialComm` and whether its port is open. The
static `ret` of `strstr` and the program's `__alive` are kept here too. -/
structure Dev where
  io : IoData
  accum : Bytes
  baccum : Bytes
  boutret : Bytes
  strstrRet : Bytes
  eol : Bytes
  tout : Int
  outproc : Bytes
  pc : Option Bool
  cancall : Bool
  ended : Bool
  alive : Bool
  progAlive : Bool
  log : Log
  deriving DecidableEq

namespace Dev

/-- The member initialisers, and `_outproc = proc` when there is one. -/
def init (proc : Option CString) : Dev where
  io := IoData.empty
  accum := []
  baccum := []
  boutret := []
  strstrRet := []
  eol := CRLF
  tout := 2000
  outproc := (proc.map CString.bytes).getD []
  pc := none
  cancall := false
  ended := false
  alive := false
  progAlive := true
  log := Log.empty

/-- `_io.putOut(bs)`. -/
def queue (d : Dev) (bs : Bytes) : Dev :=
  { d with io := d.io.putOut bs, log := { d.log with queued := d.log.queued ++ bs } }

/-- `_io.getIn()`. -/
def drain (d : Dev) (text : Bool) : Bytes × Dev :=
  let (buf, io) := d.io.getIn
  (buf, { d with io := io, log := { d.log with drained := d.log.drained ++ [⟨buf, text⟩] } })

/-- `_pc->close()` on a `SerialComm`. -/
def shut (d : Dev) : Dev := { d with pc := d.pc.map fun _ => false }

end Dev

/-! ## The calls -/

/-- A call with its arguments. `none` for a timeout is the overload that passes
`_tout`. `sendkey` also names what the local of `toBinary` holds, `binwaitt`
what the stack holds behind the array it copies. -/
inductive Call
  | puts (line : CString)
  | writeln (cmd : CString)
  | write (cmd : CString)
  | writeArray (a : Bytes)
  | sendkey (val : BitVec 32) (key : CString)
  | ctrl (key : Byte)
  | gets
  | buffer
  | any (to_ : Int)
  | read (max : Int)
  | writeread (s : CString) (to_ : Option Int)
  | writereadArray (a : Bytes) (to_ : Option Int)
  | strwaitt (expr : CString) (to_ : Option Int)
  | strstr (strings : List CString)
  | binwaitt (a stack : Bytes) (to_ : Option Int)
  | settimeout (to_ : Int)
  | seteol (cmd : CString)
  | setproc (s : Option CString)
  | close
  | exit

inductive Ret
  | void
  | int (n : Int)
  | text (t : Bytes)
  | array (a : List (Option Byte))
  deriving DecidableEq

/-- What follows the wait for input in `writeread`. -/
inductive Tail
  | done
  | gets (mark held : Nat)
  | read

/-- What follows `_waitCompletion` in a call that writes. -/
inductive Next
  | done
  | any (to_ : Int) (k : Tail)

/-- Where a thread is inside the calls. `ready` is between two calls, with what
the last one returned; `aborted` is an exception that nothing catches, a null
dereference or an overrun of a fixed buffer. `strwaitt` and `strstr` test
`hasInput` in one step and fetch in another. -/
inductive CallPc
  | ready (ret : Ret)
  | completing (k : Next)
  | any (expire : Int) (infinite : Bool) (k : Tail)
  | anyEnd (k : Tail)
  | gets (query : Option (Nat × Nat))
  | readTest (max : Int)
  | readLen
  | readMake (max : Int)
  | strwaitt (expr : CString) (expire : Int) (infinite fetch : Bool)
  | strstr (strings : List CString) (expire : Int) (fetch : Bool)
  | binwaitt (needle : Bytes) (sz : Nat) (expire : Int) (infinite : Bool)
  | aborted

/-- `tick_count() + to`, and whether -1 asks for a deadline that moves along. -/
def deadline (tick to_ : Int) : Int × Bool :=
  if to_ = -1 then (tick + SOMESEC, true) else (tick + to_, false)

/-- `GetArray` into the 256 bytes of a local buffer. -/
def fits (a : Bytes) : Bool := decide (a.length ≤ 256)

def startCall (d : Dev) (tick : Int) : Call → Dev × CallPc
  | .puts line => (d.queue line.bytes, .completing .done)
  | .writeln cmd => (d.queue (cmd.bytes ++ d.eol), .completing .done)
  | .write cmd => (d.queue cmd.bytes, .completing .done)
  | .writeArray a => if fits a then (d.queue a, .completing .done) else (d, .aborted)
  | .sendkey val key => (d.queue (Conv.toBinary val key), .completing .done)
  | .ctrl key => (d.queue [key - 0x41 + 1], .completing .done)
  | .gets => (d, .gets none)
  | .buffer => (d, .ready (.text (cstr d.accum)))
  | .any to_ =>
    let (expire, infinite) := deadline tick to_
    (d, .any expire infinite .done)
  | .read max => (d, .readTest max)
  | .writeread s to_ =>
    (d.queue s.bytes, .completing (.any (to_.getD d.tout)
      (.gets d.log.received.length d.log.taken.length)))
  | .writereadArray a to_ =>
    if fits a then (d.queue a, .completing (.any (to_.getD d.tout) .read)) else (d, .aborted)
  | .strwaitt expr to_ =>
    let (expire, infinite) := deadline tick (to_.getD d.tout)
    ({ d with accum := [] }, .strwaitt expr expire infinite false)
  | .strstr strings => ({ d with accum := [] }, .strstr strings (tick + d.tout) false)
  | .binwaitt a stack to_ =>
    let (expire, infinite) := deadline tick (to_.getD d.tout)
    if fits a then
      ({ d with accum := [] }, .binwaitt (cstr (a ++ stack)) a.length expire infinite)
    else (d, .aborted)
  | .settimeout to_ =>
    ({ d with tout := to_ }, if d.pc = none then .aborted else .ready (.int 0))
  | .seteol cmd => ({ d with eol := cmd.bytes }, .ready (.int 0))
  | .setproc s => ({ d with outproc := (s.map CString.bytes).getD [] }, .ready (.int 0))
  | .close => if d.pc = none then (d, .aborted) else (d.shut, .ready (.int 0))
  | .exit => ({ d with progAlive := false }, .ready .void)

/-- The body of `binwaitt` after `_baccum.append(_io.getIn())`. The count passed
to `append` is unsigned: below zero it wraps, and past the buffer it reads what
is not there. -/
def binwaittBody (needle : Bytes) (sz accumLen : Nat) (baccum : Bytes) : Verdict :=
  if baccum ≠ [] ∧ needle <:+: baccum then .found baccum
  else if baccum.length > TRIMEXPECT then
    if sz ≤ accumLen ∧ accumLen - sz ≤ baccum.length then .more (baccum.take (accumLen - sz))
    else .thrown
  else .more baccum

/-- The array of `read`: `max` nulls, then each byte inserted at the front. -/
def readArray (max : Int) (buf : Bytes) : List (Option Byte) :=
  buf.foldl (fun ra b => some b :: ra) (List.replicate max.toNat none)

/-- One step inside a call; `none` when no call is running. -/
def turnCall (regex : Regex) (d : Dev) (t : Turn) : CallPc → Option (Dev × CallPc)
  | .ready _ => none
  | .aborted => none
  | .completing k =>
    if t.hook ≠ -1 ∧ d.io.hasOutput ∧ d.progAlive then some (d, .completing k)
    else match k with
      | .done => some (d, .ready (.int 0))
      | .any to_ k =>
        let (expire, infinite) := deadline t.tick' to_
        some (d, .any expire infinite k)
  | .any expire infinite k =>
    if t.tick < expire ∧ ¬ d.io.hasInput ∧ d.progAlive then
      some (d, .any (if infinite then t.tick' + SOMESEC else expire) infinite k)
    else some (d, .anyEnd k)
  | .anyEnd k =>
    match k with
    | .done => some (d, .ready (.int (if d.io.hasInput then 0 else 1)))
    | .gets mark held => some (d, .gets (some (mark, held)))
    | .read => some (d, .readTest READMAX)
  | .gets query =>
    let start := d.log.taken.length
    let (buf, d) := d.drain true
    let d := { d with boutret := buf }
    match query with
    | none => some (d, .ready (.text (cstr buf)))
    | some (mark, held) =>
      some ({ d with log := { d.log with
          replies := d.log.replies ++ [⟨mark, held, start, cstr buf⟩] } },
        .ready (.text (cstr buf)))
  | .readTest max => some (d, if d.io.hasInput then .readLen else .readMake max)
  -- `inLen` returns `!_in.length()`
  | .readLen => some (d, .readMake (if d.io.hasInput then 0 else 1))
  | .readMake max =>
    if max = 0 then some (d, .ready (.array []))
    else if max < 0 then some (d, .aborted)
    else
      let (buf, d) := d.drain false
      some (d, .ready (.array (readArray max buf)))
  | .strwaitt expr expire infinite false =>
    if t.go d.progAlive expire then
      some (d, .strwaitt expr (if infinite then t.tick' + SOMESEC else expire) infinite
        d.io.hasInput)
    else some (d, .ready (.int 1))
  | .strwaitt expr expire infinite true =>
    let (buf, d) := d.drain true
    match strwaittBody regex expr d.accum buf with
    | .found accum => some ({ d with accum := accum }, .ready (.int 0))
    | .more accum => some ({ d with accum := accum }, .strwaitt expr expire infinite false)
    | .thrown => some (d, .aborted)
  | .strstr strings expire false =>
    if t.go d.progAlive expire then some (d, .strstr strings expire d.io.hasInput)
    else some (d, .ready (.text d.strstrRet))
  | .strstr strings expire true =>
    let (buf, d) := d.drain true
    let (hit, trunc) := strstrBody strings d.accum buf
    let ret := (hit.map CString.bytes).getD d.strstrRet
    let expire := if hit.isSome then t.tick' else expire
    match trunc with
    | some accum =>
      some ({ d with accum := accum, strstrRet := ret }, .strstr strings expire false)
    | none => some ({ d with strstrRet := ret }, .aborted)
  | .binwaitt needle sz expire infinite =>
    if t.go d.progAlive expire then
      let expire := if infinite then t.tick' + SOMESEC else expire
      let (buf, d) := d.drain false
      match binwaittBody needle sz d.accum.length (d.baccum ++ buf) with
      | .found baccum => some ({ d with baccum := baccum }, .ready (.int 0))
      | .more baccum => some ({ d with baccum := baccum }, .binwaitt needle sz expire infinite)
      | .thrown => some (d, .aborted)
    else some (d, .ready (.int 1))

inductive CallAct
  | call (c : Call) (tick : Int)
  | turn (t : Turn)

def callStep (regex : Regex) (d : Dev) (pc : CallPc) : CallAct → Option (Dev × CallPc)
  | .call c tick =>
    match pc with
    | .ready _ => some (startCall d tick c)
    | _ => none
  | .turn t => turnCall regex d t pc

/-! ## What one step of a call does -/

/-- The two counts a `writeread(s)` still carries. -/
def Tail.query : Tail → Option (Nat × Nat)
  | .gets mark held => some (mark, held)
  | _ => none

def CallPc.query : CallPc → Option (Nat × Nat)
  | .completing (.any _ k) => k.query
  | .any _ _ k => k.query
  | .anyEnd k => k.query
  | .gets query => query
  | _ => none

/-- The buffers and the log: a step touches neither, or is one `putOut`, or is
one `getIn`, which may end a `writeread`. -/
inductive Moved (d : Dev) (pc : CallPc) (d' : Dev) : Prop
  | keep (io : d'.io = d.io) (log : d'.log = d.log)
  | queue (bs : Bytes) (io : d'.io = d.io.putOut bs)
      (log : d'.log = { d.log with queued := d.log.queued ++ bs })
  | drain (text : Bool) (replies : List Reply) (io : d'.io = { d.io with in_ := [] })
      (log : d'.log = { d.log with
        drained := d.log.drained ++ [⟨d.io.in_, text⟩]
        replies := d.log.replies ++ replies })
      (asked : ∀ r ∈ replies, pc.query = some (r.mark, r.held) ∧
        r.start = d.log.taken.length ∧ r.text = cstr d.io.in_)

/-- The wire and the arrivals are the IO thread's. -/
theorem Moved.frame {d d' : Dev} {pc : CallPc} (h : Moved d pc d') :
    d'.log.wire = d.log.wire ∧ d'.log.acked = d.log.acked ∧
      d'.log.received = d.log.received ∧ d'.log.stored = d.log.stored := by
  cases h with
  | keep _ log => rw [log]; exact ⟨rfl, rfl, rfl, rfl⟩
  | queue _ _ log => rw [log]; exact ⟨rfl, rfl, rfl, rfl⟩
  | drain _ _ _ log _ => rw [log]; exact ⟨rfl, rfl, rfl, rfl⟩

/-- Calls only add to what was drained. -/
theorem Moved.taken_le {d d' : Dev} {pc : CallPc} (h : Moved d pc d') :
    d.log.taken.length ≤ d'.log.taken.length := by
  cases h with
  | keep _ log => rw [log]
  | queue _ _ log => rw [log]; exact le_rfl
  | drain _ _ _ log _ => rw [log]; simp [Log.taken]

/-- Calls only add to what was queued. -/
theorem Moved.queued_initial {d d' : Dev} {pc : CallPc} (h : Moved d pc d') :
    d.log.queued <+: d'.log.queued := by
  cases h with
  | keep _ log => rw [log]
  | queue _ _ log => rw [log]; exact List.prefix_append _ _
  | drain _ _ _ log _ => rw [log]

/-- A step of a call leaves the flags of the IO thread alone. -/
structure CallEffect (d : Dev) (pc : CallPc) (d' : Dev) (pc' : CallPc) : Prop where
  moved : Moved d pc d'
  cancall : d'.cancall = d.cancall
  ended : d'.ended = d.ended
  alive : d'.alive = d.alive
  pc_some : d'.pc.isSome = d.pc.isSome
  progAlive : d'.progAlive = true → d.progAlive = true
  query : ∀ q, pc'.query = some q →
    pc.query = some q ∨ q = (d.log.received.length, d.log.taken.length)

theorem Dev.drain_eq (d : Dev) (text : Bool) :
    d.drain text = (d.io.in_, { d with
      io := { d.io with in_ := [] }
      log := { d.log with drained := d.log.drained ++ [⟨d.io.in_, text⟩] } }) := by
  simp only [Dev.drain, IoData.getIn_eq]

/-- A step that leaves the object as it was. -/
theorem CallEffect.same (d : Dev) {pc pc' : CallPc}
    (hquery : ∀ q, pc'.query = some q → pc.query = some q) : CallEffect d pc d pc' :=
  ⟨.keep rfl rfl, rfl, rfl, rfl, rfl, id, fun q hq => .inl (hquery q hq)⟩

/-- A step that queues `bs`. -/
theorem CallEffect.queued (d : Dev) (bs : Bytes) {pc pc' : CallPc}
    (hquery : ∀ q, pc'.query = some q → q = (d.log.received.length, d.log.taken.length)) :
    CallEffect d pc (d.queue bs) pc' :=
  ⟨.queue bs rfl rfl, rfl, rfl, rfl, rfl, id, fun q hq => .inr (hquery q hq)⟩

theorem startCall_effect (d : Dev) (tick : Int) (ret : Ret) (c : Call) :
    CallEffect d (.ready ret) (startCall d tick c).1 (startCall d tick c).2 := by
  cases c with
  | puts line => exact .queued d _ nofun
  | writeln cmd => exact .queued d _ nofun
  | write cmd => exact .queued d _ nofun
  | sendkey val key => exact .queued d _ nofun
  | ctrl key => exact .queued d _ nofun
  | writeread s to_ => exact .queued d _ fun q hq => (Option.some.inj hq).symm
  | writeArray a =>
    simp only [startCall]
    split
    · exact .queued d a nofun
    · exact .same d nofun
  | writereadArray a to_ =>
    simp only [startCall]
    split
    · exact .queued d a nofun
    · exact .same d nofun
  | gets => exact .same d nofun
  | buffer => exact .same d nofun
  | any to_ => exact .same d nofun
  | read max => exact .same d nofun
  | close =>
    simp only [startCall]
    split
    · exact .same d nofun
    · exact ⟨.keep rfl rfl, rfl, rfl, rfl, by simp [Dev.shut], id, nofun⟩
  | binwaitt a stack to_ =>
    simp only [startCall]
    split
    · exact ⟨.keep rfl rfl, rfl, rfl, rfl, rfl, id, nofun⟩
    · exact .same d nofun
  | settimeout to_ =>
    simp only [startCall]
    split
    · exact ⟨.keep rfl rfl, rfl, rfl, rfl, rfl, id, nofun⟩
    · exact ⟨.keep rfl rfl, rfl, rfl, rfl, rfl, id, nofun⟩
  | exit => exact ⟨.keep rfl rfl, rfl, rfl, rfl, rfl, nofun, nofun⟩
  | strwaitt | strstr | seteol | setproc =>
    exact ⟨.keep rfl rfl, rfl, rfl, rfl, rfl, id, nofun⟩

/-- A drain that ends no `writeread`. -/
theorem Moved.read (d : Dev) (pc : CallPc) (text : Bool) {d' : Dev}
    (io : d'.io = (d.drain text).2.io) (log : d'.log = (d.drain text).2.log) :
    Moved d pc d' := by
  rw [Dev.drain_eq] at io log
  exact .drain text [] io (by simpa using log) nofun

theorem turnCall_effect {regex : Regex} {d d' : Dev} {t : Turn} {pc pc' : CallPc}
    (h : turnCall regex d t pc = some (d', pc')) : CallEffect d pc d' pc' := by
  cases pc with
  | ready ret => cases h
  | aborted => cases h
  | completing k =>
    simp only [turnCall] at h
    split at h
    · cases h; exact .same d fun _ hq => hq
    · cases k with
      | done => cases h; exact .same d nofun
      | any to_ k => cases h; exact .same d fun _ hq => hq
  | any expire infinite k =>
    simp only [turnCall] at h
    split at h
    · cases h; exact .same d fun _ hq => hq
    · cases h; exact .same d fun _ hq => hq
  | anyEnd k =>
    cases k with
    | done => cases h; exact .same d nofun
    | gets mark held => cases h; exact .same d fun _ hq => hq
    | read => cases h; exact .same d nofun
  | gets query =>
    simp only [turnCall, Dev.drain_eq] at h
    cases query with
    | none =>
      cases h
      exact ⟨.drain true [] rfl (by simp) nofun, rfl, rfl, rfl, rfl, id, nofun⟩
    | some q =>
      obtain ⟨mark, held⟩ := q
      cases h
      refine ⟨.drain true [⟨mark, held, d.log.taken.length, cstr d.io.in_⟩] rfl rfl ?_,
        rfl, rfl, rfl, rfl, id, nofun⟩
      intro r hr
      obtain rfl := List.mem_singleton.mp hr
      exact ⟨rfl, rfl, rfl⟩
  | readTest max =>
    simp only [turnCall] at h
    split at h
    · cases h; exact .same d nofun
    · cases h; exact .same d nofun
  | readLen => cases h; exact .same d nofun
  | readMake max =>
    simp only [turnCall] at h
    split at h
    · cases h; exact .same d nofun
    · split at h
      · cases h; exact .same d nofun
      · cases h; exact ⟨.read _ _ false rfl rfl, rfl, rfl, rfl, rfl, id, nofun⟩
  | strwaitt expr expire infinite fetch =>
    cases fetch with
    | false =>
      simp only [turnCall] at h
      split at h
      · cases h; exact .same d nofun
      · cases h; exact .same d nofun
    | true =>
      simp only [turnCall] at h
      split at h <;> cases h <;> exact ⟨.read _ _ true rfl rfl, rfl, rfl, rfl, rfl, id, nofun⟩
  | strstr strings expire fetch =>
    cases fetch with
    | false =>
      simp only [turnCall] at h
      split at h
      · cases h; exact .same d nofun
      · cases h; exact .same d nofun
    | true =>
      simp only [turnCall] at h
      split at h <;> cases h <;> exact ⟨.read _ _ true rfl rfl, rfl, rfl, rfl, rfl, id, nofun⟩
  | binwaitt needle sz expire infinite =>
    simp only [turnCall] at h
    split at h
    · split at h <;> cases h <;> exact ⟨.read _ _ false rfl rfl, rfl, rfl, rfl, rfl, id, nofun⟩
    · cases h; exact .same d nofun

/-! ## Which calls write -/

/-- What a call queues before it enters `_waitCompletion`; `none` for a call
that does not write. -/
def Call.output (eol : Bytes) : Call → Option Bytes
  | .puts line => some line.bytes
  | .writeln cmd => some (cmd.bytes ++ eol)
  | .write cmd => some cmd.bytes
  | .writeArray a => if fits a then some a else none
  | .sendkey val key => some (Conv.toBinary val key)
  | .ctrl key => some [key - 0x41 + 1]
  | .writeread s _ => some s.bytes
  | .writereadArray a _ => if fits a then some a else none
  | _ => none

theorem startCall_writes {d : Dev} (tick : Int) {c : Call} {bs : Bytes}
    (h : c.output d.eol = some bs) : (startCall d tick c).1 = d.queue bs := by
  cases c with
  | writeArray a =>
    by_cases hfits : fits a = true
    · simp only [Call.output, hfits, if_true, Option.some.injEq] at h
      subst h
      simp [startCall, hfits]
    · simp [Call.output, hfits] at h
  | writereadArray a to_ =>
    by_cases hfits : fits a = true
    · simp only [Call.output, hfits, if_true, Option.some.injEq] at h
      subst h
      simp [startCall, hfits]
    · simp [Call.output, hfits] at h
  | _ => cases h <;> rfl

theorem startCall_silent {d : Dev} {tick : Int} {c : Call} (h : c.output d.eol = none) :
    (startCall d tick c).1.io = d.io ∧ ∀ k, (startCall d tick c).2 ≠ .completing k := by
  cases c with
  | writeArray a =>
    by_cases hfits : fits a = true
    · simp [Call.output, hfits] at h
    · simp [startCall, hfits]
  | writereadArray a to_ =>
    by_cases hfits : fits a = true
    · simp [Call.output, hfits] at h
    · simp [startCall, hfits]
  | binwaitt a stack to_ =>
    simp only [startCall]
    split <;> exact ⟨rfl, nofun⟩
  | settimeout to_ =>
    simp only [startCall]
    split <;> exact ⟨trivial, nofun⟩
  | close =>
    simp only [startCall]
    split <;> exact ⟨rfl, nofun⟩
  | puts | writeln | write | sendkey | ctrl | writeread => cases h
  | _ => exact ⟨rfl, nofun⟩

/-- Only a call that was there before is in `_waitCompletion` after a turn. -/
theorem turnCall_completing {regex : Regex} {d d' : Dev} {t : Turn} {pc : CallPc} {k : Next}
    (h : turnCall regex d t pc = some (d', .completing k)) : d' = d ∧ pc = .completing k := by
  cases pc with
  | completing k' =>
    simp only [turnCall] at h
    split at h
    · cases h; exact ⟨rfl, rfl⟩
    · cases k' <;> cases h
  | ready | aborted | readLen => cases h
  | any | readTest =>
    simp only [turnCall] at h
    split at h <;> cases h
  | anyEnd k' => cases k' <;> cases h
  | gets query => cases query <;> cases h
  | readMake max =>
    simp only [turnCall] at h
    split at h
    · cases h
    · split at h <;> cases h
  | strwaitt expr expire infinite fetch =>
    cases fetch <;> simp only [turnCall] at h <;> split at h <;> cases h
  | strstr strings expire fetch =>
    cases fetch <;> simp only [turnCall] at h <;> split at h <;> cases h
  | binwaitt needle sz expire infinite =>
    simp only [turnCall] at h
    split at h
    · split at h <;> cases h
    · cases h

/-- After a step a thread is in `_waitCompletion` because it was before, or
because it has just started a call that writes. -/
theorem callStep_completing {regex : Regex} {d d' : Dev} {pc : CallPc} {a : CallAct} {k : Next}
    (h : callStep regex d pc a = some (d', .completing k)) :
    (d' = d ∧ pc = .completing k) ∨
      ∃ c tick bs, a = .call c tick ∧ c.output d.eol = some bs ∧ d' = d.queue bs := by
  cases a with
  | turn t => exact .inl (turnCall_completing h)
  | call c tick =>
    cases pc with
    | ready ret =>
      have hstart : startCall d tick c = (d', .completing k) := Option.some.inj h
      cases hout : c.output d.eol with
      | none => exact absurd (by rw [hstart]) ((startCall_silent hout).2 k)
      | some bs =>
        have hd : (startCall d tick c).1 = d.queue bs := startCall_writes tick hout
        rw [hstart] at hd
        exact .inr ⟨c, tick, bs, rfl, hout, hd⟩
    | _ => cases h

/-- **One step of a call**, whichever thread makes it. -/
theorem callStep_effect {regex : Regex} {d d' : Dev} {pc pc' : CallPc} {a : CallAct}
    (h : callStep regex d pc a = some (d', pc')) : CallEffect d pc d' pc' := by
  cases a with
  | call c tick =>
    cases pc with
    | ready ret =>
      have heffect := startCall_effect d tick ret c
      rw [Option.some.inj h] at heffect
      exact heffect
    | _ => cases h
  | turn t => exact turnCall_effect h

end Autocom
