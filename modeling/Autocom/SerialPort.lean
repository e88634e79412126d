import Autocom.Conv

/-! # `SerialPort` and `SerialComm` on Linux: the descriptor

What the constructor, `open`, `close` and the destructors do with `_port`. The
answers of the operating system to one `OpenComport` are its argument. Each
`open()` and each `close()` is written down in `calls`, which no branch looks at.
The terminal settings and the modem lines do not meet the descriptor and are
not part of this state. -/
namespace Autocom

/-! ## The C library -/

def COMMA : Byte := 0x2c

/-- `strtok(s, ",")`: the token and what a next `strtok(0, ",")` starts from;
`none` is the null pointer. -/
def strtok (s : Bytes) : Option (Bytes × Bytes) :=
  let s := s.dropWhile (· == COMMA)
  if s = [] then none
  else some (s.takeWhile (· != COMMA), (s.dropWhile (· != COMMA)).drop 1)

/-- The string that `strtok(s, ",")` leaves in `s`: its token is cut off there. -/
def strtokCut (s : Bytes) : Bytes :=
  s.takeWhile (· == COMMA) ++ (s.dropWhile (· == COMMA)).takeWhile (· != COMMA)

theorem strtok_nil : strtok [] = none := rfl

/-- The token that was cut off is the only one left. -/
theorem strtok_cut {s tok rest : Bytes} (h : strtok s = some (tok, rest)) :
    strtok (strtokCut s) = some (tok, []) := by
  unfold strtok at h
  simp only at h
  split at h
  · cases h
  · next hne =>
    set t := s.dropWhile (· == COMMA) with ht
    obtain ⟨htok, -⟩ := Prod.mk.inj (Option.some.inj h)
    have hlead : ∀ b ∈ s.takeWhile (· == COMMA), (b == COMMA) = true := fun b hb => by
      simpa using List.mem_takeWhile_imp hb
    -- the head of the rest is no comma, so the token is not empty
    obtain ⟨c, cs, hc⟩ := List.exists_cons_of_ne_nil hne
    have hhead : (c == COMMA) = false := by
      have := List.head_dropWhile_not (· == COMMA) (l := s) (by rw [← ht]; exact hne)
      simpa [← ht, hc] using this
    have htok' : tok = c :: cs.takeWhile (· != COMMA) := by
      rw [← htok, hc]
      simp [bne, hhead]
    have hdrop : (strtokCut s).dropWhile (· == COMMA) = tok := by
      rw [strtokCut, ← ht, htok, List.dropWhile_append_of_pos hlead, htok',
        List.dropWhile_cons_of_neg (by simp [hhead])]
    have hall : ∀ b ∈ tok, (b != COMMA) = true := fun b hb => by
      rw [← htok] at hb
      simpa using List.mem_takeWhile_imp hb
    unfold strtok
    simp only [hdrop]
    rw [if_neg (by rw [htok']; exact List.cons_ne_nil _ _),
      List.takeWhile_eq_self_iff.mpr hall, List.dropWhile_eq_nil_iff.mpr hall]
    rfl

def isDigit (c : Byte) : Bool := 0x30 ≤ c && c ≤ 0x39

def decimal (s : Bytes) : Int :=
  (s.takeWhile isDigit).foldl (fun n c => 10 * n + (c.toNat - 0x30)) 0

/-- `(int)strtol(s, NULL, 10)`: a `long` that saturates, cut to 32 bits. -/
def atoi (s : Bytes) : Int :=
  let s := s.dropWhile Conv.isSpace
  let v := match s with
    | [] => 0
    | c :: t => if c = 0x2d then -decimal t else if c = 0x2b then decimal t else decimal s
  (BitVec.ofInt 32 (max (-2 ^ 63) (min (2 ^ 63 - 1) v))).toInt

/-! ## `SerialPort` -/

inductive Syscall
  | open_ (comname : Bytes) (rv : Int)
  | close (fd : Int)
  deriving DecidableEq

/-- What the calls that `OpenComport` makes answer: a descriptor or -1 for
`open()`, success or failure for the others. -/
structure OpenOutcome where
  open_ : Option Nat
  flock : Bool
  tcgetattr : Bool
  tcsetattr : Bool
  tiocmget : Bool
  tiocmset : Bool
  deriving DecidableEq

structure SerialPort where
  port : Int
  calls : List Syscall
  deriving DecidableEq

namespace SerialPort

def isOpen (p : SerialPort) : Bool := decide (p.port > 0)

def baudrates : List Int :=
  [50, 75, 110, 134, 150, 200, 300, 600, 1200, 1800, 2400, 4800, 9600, 19200, 38400, 57600,
    115200, 230400, 460800, 500000, 576000, 921600, 1000000, 1500000, 2000000, 2500000,
    3000000, 3500000, 4000000]

/-- Data bits, parity and stop bits, as in `8N1`. -/
def modeAccepted : Bytes → Bool
  | [bits, parity, stop] =>
    [0x38, 0x37, 0x36, 0x35].contains bits &&
      [0x4e, 0x6e, 0x45, 0x65, 0x4f, 0x6f].contains parity && [0x31, 0x32].contains stop
  | _ => false

/-- `::close(_port)`. -/
def sysClose (p : SerialPort) : SerialPort := { p with calls := p.calls ++ [.close p.port] }

/-- `none` is `strlen` of a null `mode`. -/
def openComport (p : SerialPort) (comname : Bytes) (baudrate : Int) (mode : Option Bytes)
    (os : OpenOutcome) : Option (SerialPort × Int) :=
  if baudrate ∉ baudrates then some (p, 1)
  else match mode with
    | none => none
    | some mode =>
      if ! modeAccepted mode then some (p, 1)
      else match os.open_ with
        | none => some (⟨-1, p.calls ++ [.open_ comname (-1)]⟩, -1)
        | some fd =>
          let p : SerialPort := ⟨fd, p.calls ++ [.open_ comname fd]⟩
          if ! os.flock then some (p.sysClose, 1)
          else if ! os.tcgetattr then some (p.sysClose, 1)
          else if ! os.tcsetattr then some ({ p.sysClose with port := 0 }, 1)
          else if ! os.tiocmget then some (p, 1)
          else if ! os.tiocmset then some (p, 1)
          else some (p, 0)

def closeComport (p : SerialPort) : SerialPort := { p.sysClose with port := 0 }

end SerialPort

/-! ## `SerialComm` -/

/-- `credentials` is the string in `_credentials`, `device` is `_device`. -/
structure SerialComm where
  credentials : Bytes
  device : SerialPort
  deriving DecidableEq

namespace SerialComm

/-- `char _credentials[128]`. -/
def CREDENTIALS : Nat := 128

/-- `SerialComm(cred)`. `SerialPort()` leaves `_port` as the memory was. A string
that does not fit is copied over what follows: `none`. -/
def init (garbage : Int) (cred : CString) : Option SerialComm :=
  if cred.bytes.length < CREDENTIALS then some ⟨cred.bytes, ⟨garbage, []⟩⟩ else none

/-- The first three fields of a credential; the third may be missing. -/
def fields (credentials : Bytes) : Option (Bytes × Bytes × Option Bytes) := do
  let (dev, rest) ← strtok credentials
  let (speed, rest) ← strtok rest
  return (dev, speed, (strtok rest).map Prod.fst)

/-- `none` is a null pointer passed on, to `atoi` or to `strlen`. -/
def open_ (c : SerialComm) (os : OpenOutcome) : Option (SerialComm × Int) := do
  let (dev, speed, mode) ← fields c.credentials
  let (device, rv) ← c.device.openComport dev (atoi speed) mode os
  return (⟨strtokCut c.credentials, device⟩, rv)

def close (c : SerialComm) : SerialComm :=
  let device := if c.device.port ≠ 0 then c.device.closeComport else c.device
  { c with device := { device with port := 0 } }

/-- `~SerialComm`, then the destructor of its member `_device`. -/
def destroy (c : SerialComm) : SerialComm :=
  let c := c.close
  { c with device := c.device.closeComport }

/-! ## From construction to destruction -/

inductive Op
  | open_ (os : OpenOutcome)
  | close
  | destroy
  deriving DecidableEq

/-- The object, whether it has been destroyed, and what each `open` that
returned gave and left: its result and `isOpen()`. -/
structure Life where
  comm : SerialComm
  destroyed : Bool
  opens : List (Int × Bool)
  deriving DecidableEq

def Life.init (garbage : Int) (cred : CString) : Option Life :=
  (SerialComm.init garbage cred).map fun comm => ⟨comm, false, []⟩

/-- `none`: the object is gone, or the process is. -/
def step (l : Life) (op : Op) : Option Life :=
  if l.destroyed then none
  else match op with
    | .open_ os => (l.comm.open_ os).map fun r =>
        ⟨r.1, false, l.opens ++ [(r.2, r.1.device.isOpen)]⟩
    | .close => some { l with comm := l.comm.close }
    | .destroy => some { l with comm := l.comm.destroy, destroyed := true }

end SerialComm

end Autocom
