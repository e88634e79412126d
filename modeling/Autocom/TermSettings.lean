import Autocom.Credentials

/-! # The line settings

What `OpenComport` makes of a speed and a mode such as `8N1`: flags of `termios` on
Linux, the text `mode_str` for `BuildCommDCBA` on Windows. Both are read back here,
as the driver reads the flags and as the text is documented to be read. -/
namespace Autocom.TermSettings
open Autocom

abbrev Flags := BitVec 32

structure Termios where
  iflag : Flags
  oflag : Flags
  cflag : Flags
  lflag : Flags
  vmin : Byte
  vtime : Byte
  ispeed : Flags
  ospeed : Flags
  deriving DecidableEq

def CSIZE : Flags := 0x30
def CS5 : Flags := 0x00
def CS6 : Flags := 0x10
def CS7 : Flags := 0x20
def CS8 : Flags := 0x30
def CSTOPB : Flags := 0x40
def CREAD : Flags := 0x80
def PARENB : Flags := 0x100
def PARODD : Flags := 0x200
def CLOCAL : Flags := 0x800
def IGNPAR : Flags := 0x04
def INPCK : Flags := 0x10
def CBAUD : Flags := 0x100f

/-- `Bn` with its rate `n`. -/
def bauds : List (Int × Flags) :=
  [(50, 0x1), (75, 0x2), (110, 0x3), (134, 0x4), (150, 0x5), (200, 0x6), (300, 0x7),
    (600, 0x8), (1200, 0x9), (1800, 0xa), (2400, 0xb), (4800, 0xc), (9600, 0xd), (19200, 0xe),
    (38400, 0xf), (57600, 0x1001), (115200, 0x1002), (230400, 0x1003), (460800, 0x1004),
    (500000, 0x1005), (576000, 0x1006), (921600, 0x1007), (1000000, 0x1008),
    (1500000, 0x100a), (2000000, 0x100b), (2500000, 0x100c), (3000000, 0x100d),
    (3500000, 0x100e), (4000000, 0x100f)]

theorem bauds_rates : bauds.map Prod.fst = SerialPort.baudrates := rfl

/-! ## Linux -/

/-- `switch(baudrate)`. -/
def baudr (baudrate : Int) : Option Flags := bauds.lookup baudrate

/-- The four variables that the switches over `mode` set. -/
structure ModeFlags where
  cbits : Flags
  cpar : Flags
  ipar : Flags
  bstop : Flags
  deriving DecidableEq

/-- `switch(mode[0])`. -/
def cbits : Byte → Option Flags
  | 0x38 => some CS8
  | 0x37 => some CS7
  | 0x36 => some CS6
  | 0x35 => some CS5
  | _ => none

/-- `switch(mode[1])`: `cpar` and `ipar`. -/
def cpar : Byte → Option (Flags × Flags)
  | 0x4e | 0x6e => some (0, IGNPAR)
  | 0x45 | 0x65 => some (PARENB, INPCK)
  | 0x4f | 0x6f => some (PARENB ||| PARODD, INPCK)
  | _ => none

/-- `switch(mode[2])`. -/
def bstop : Byte → Option Flags
  | 0x31 => some 0
  | 0x32 => some CSTOPB
  | _ => none

def modeFlags : Bytes → Option ModeFlags
  | [bits, parity, stop] => do
    let cbits ← cbits bits
    let (cpar, ipar) ← cpar parity
    let bstop ← bstop stop
    return ⟨cbits, cpar, ipar, bstop⟩
  | _ => none

/-- `cfsetispeed`; a speed other than 0 is put into `c_cflag` as well. -/
def cfsetispeed (t : Termios) (speed : Flags) : Termios :=
  { t with ispeed := speed, cflag := t.cflag &&& ~~~CBAUD ||| speed }

def cfsetospeed (t : Termios) (speed : Flags) : Termios :=
  { t with ospeed := speed, cflag := t.cflag &&& ~~~CBAUD ||| speed }

/-- `_curTCSett`. -/
def curTCSett (baudr : Flags) (m : ModeFlags) : Termios :=
  let t : Termios :=
    { iflag := m.ipar, oflag := 0, cflag := m.cbits ||| m.cpar ||| m.bstop ||| CLOCAL ||| CREAD
      lflag := 0, vmin := 0, vtime := 0, ispeed := 0, ospeed := 0 }
  cfsetospeed (cfsetispeed t baudr) baudr

/-! ## Windows -/

/-- `strcpy(mode_str, "baud=…")`. -/
def baudText : List (Int × List Char) :=
  [(110, "baud=110".toList), (300, "baud=300".toList), (600, "baud=600".toList),
    (1200, "baud=1200".toList), (2400, "baud=2400".toList), (4800, "baud=4800".toList),
    (9600, "baud=9600".toList), (19200, "baud=19200".toList), (38400, "baud=38400".toList),
    (57600, "baud=57600".toList), (115200, "baud=115200".toList),
    (128000, "baud=128000".toList), (256000, "baud=256000".toList),
    (500000, "baud=500000".toList), (100000, "baud=100000".toList)]

def dataText : Byte → Option (List Char)
  | 0x38 => some " data=8".toList
  | 0x37 => some " data=7".toList
  | 0x36 => some " data=6".toList
  | 0x35 => some " data=5".toList
  | _ => none

def parityText : Byte → Option (List Char)
  | 0x4e | 0x6e => some " parity=n".toList
  | 0x45 | 0x65 => some " parity=e".toList
  | 0x4f | 0x6f => some " parity=o".toList
  | _ => none

def stopText : Byte → Option (List Char)
  | 0x31 => some " stop=1".toList
  | 0x32 => some " stop=2".toList
  | _ => none

/-- `mode_str` at `BuildCommDCBA`; `none` is an early `return(1)`. -/
def mode_str (baudrate : Int) (mode : Bytes) : Option (List Char) := do
  let baud ← baudText.lookup baudrate
  match mode with
  | [bits, parity, stop] =>
    let data ← dataText bits
    let parity ← parityText parity
    let stop ← stopText stop
    return baud ++ data ++ parity ++ stop ++ " dtr=on rts=on".toList
  | _ => none

/-! ## Reading them back -/

inductive Parity
  | none
  | even
  | odd
  deriving DecidableEq

structure Line where
  speed : Int
  data : Nat
  parity : Parity
  stop : Nat
  deriving DecidableEq

/-- What a speed and a mode such as `8N1` ask for. -/
def asked (speed : Int) : Bytes → Option Line
  | [bits, parity, stop] =>
    if 0x35 ≤ bits ∧ bits ≤ 0x38 ∧ 0x31 ≤ stop ∧ stop ≤ 0x32 then
      let line (p : Parity) : Line := ⟨speed, bits.toNat - 0x30, p, stop.toNat - 0x30⟩
      if parity = 0x4e ∨ parity = 0x6e then some (line .none)
      else if parity = 0x45 ∨ parity = 0x65 then some (line .even)
      else if parity = 0x4f ∨ parity = 0x6f then some (line .odd)
      else none
    else none
  | _ => none

def readSpeed (cflag : Flags) : Option Int :=
  (bauds.find? fun r => r.2 == cflag &&& CBAUD).map Prod.fst

def readData (cflag : Flags) : Nat :=
  let size := cflag &&& CSIZE
  if size = CS5 then 5 else if size = CS6 then 6 else if size = CS7 then 7 else 8

def readParity (cflag : Flags) : Parity :=
  if cflag &&& PARENB = 0 then .none else if cflag &&& PARODD = 0 then .even else .odd

def readStop (cflag : Flags) : Nat := if cflag &&& CSTOPB = 0 then 1 else 2

def Termios.line (t : Termios) : Option Line := do
  let speed ← readSpeed t.cflag
  return ⟨speed, readData t.cflag, readParity t.cflag, readStop t.cflag⟩

/-- The text behind `key=`, among items with blanks between them. -/
def value (key : String) (text : List Char) : Option (List Char) :=
  (text.splitOn ' ').findSome? fun item => item.dropPrefix? (key.toList ++ ['='])

def number (digits : List Char) : Nat := digits.foldl (fun n c => 10 * n + (c.toNat - 0x30)) 0

def parityLetter : List Char → Option Parity
  | ['n'] => some .none
  | ['e'] => some .even
  | ['o'] => some .odd
  | _ => none

def dcbLine (text : List Char) : Option Line := do
  let baud ← value "baud" text
  let data ← value "data" text
  let parity ← value "parity" text
  let parity ← parityLetter parity
  let stop ← value "stop" text
  return ⟨number baud, number data, parity, number stop⟩

/-! ## The flags -/

theorem bauds_masked {r : Int × Flags} (h : r ∈ bauds) : r.2 &&& CBAUD = r.2 := by
  have hall : ∀ r ∈ bauds, r.2 &&& CBAUD = r.2 := by decide
  exact hall r h

/-- No two speeds have one constant. -/
theorem bauds_find {r : Int × Flags} (h : r ∈ bauds) :
    bauds.find? (fun r' => r'.2 == r.2) = some r := by
  have hall : ∀ r ∈ bauds, bauds.find? (fun r' => r'.2 == r.2) = some r := by decide
  exact hall r h

theorem baudr_mem {baudrate : Int} {b : Flags} (h : baudr baudrate = some b) :
    (baudrate, b) ∈ bauds := by
  obtain ⟨l₁, l₂, heq, -⟩ := List.lookup_eq_some_iff.mp h
  rw [heq]
  exact List.mem_append_right _ List.mem_cons_self

/-- The speed is read from its own bits. -/
theorem speed_bits (c : Flags) {b : Flags} (hb : b &&& CBAUD = b) :
    (c &&& ~~~CBAUD ||| b) &&& CBAUD = b := by
  rw [BitVec.and_or_distrib_right, BitVec.and_assoc, BitVec.and_comm (~~~CBAUD),
    BitVec.and_not_self, hb]
  simp

/-- Putting the speed in leaves the bits of a mask alone that has none of its own. -/
theorem other_bits (c : Flags) {b mask : Flags} (hb : b &&& CBAUD = b)
    (hmask : CBAUD &&& mask = 0) : (c &&& ~~~CBAUD ||| b) &&& mask = c &&& mask := by
  have hbm : b &&& mask = 0#32 := by rw [← hb, BitVec.and_assoc, hmask]; simp
  have hout : ~~~CBAUD &&& mask = mask := by
    ext i hi
    have hbit := congrArg (·.getLsbD i) hmask
    simp only [BitVec.getLsbD_eq_getElem hi] at hbit
    rw [BitVec.getElem_and, BitVec.getElem_not]
    cases hm : CBAUD[i]
    · simp
    · simpa [hm] using hbit.symm
  rw [BitVec.and_or_distrib_right, hbm, BitVec.or_zero, BitVec.and_assoc, hout]

/-- The flags that say how a character is framed. -/
def framing (m : ModeFlags) : Flags := m.cbits ||| m.cpar ||| m.bstop ||| CLOCAL ||| CREAD

theorem curTCSett_masked {b : Flags} (hb : b &&& CBAUD = b) (m : ModeFlags) (mask : Flags)
    (hmask : CBAUD &&& mask = 0) : (curTCSett b m).cflag &&& mask = framing m &&& mask := by
  change ((framing m &&& ~~~CBAUD ||| b) &&& ~~~CBAUD ||| b) &&& mask = _
  rw [other_bits _ hb hmask, other_bits _ hb hmask]

theorem curTCSett_reads {b : Flags} (hb : b &&& CBAUD = b) (m : ModeFlags) :
    readData (curTCSett b m).cflag = readData (framing m) ∧
      readParity (curTCSett b m).cflag = readParity (framing m) ∧
      readStop (curTCSett b m).cflag = readStop (framing m) := by
  unfold readData readParity readStop
  rw [curTCSett_masked hb m CSIZE rfl, curTCSett_masked hb m PARENB rfl,
    curTCSett_masked hb m PARODD rfl, curTCSett_masked hb m CSTOPB rfl]
  exact ⟨rfl, rfl, rfl⟩

theorem cbits_cases {c : Byte} {f : Flags} (h : cbits c = some f) :
    (c, f) ∈ [(0x38, CS8), (0x37, CS7), (0x36, CS6), (0x35, CS5)] := by
  unfold cbits at h
  split at h <;> cases h <;> decide

theorem cpar_cases {c : Byte} {f : Flags × Flags} (h : cpar c = some f) :
    (c, f) ∈ [(0x4e, 0, IGNPAR), (0x6e, 0, IGNPAR), (0x45, PARENB, INPCK), (0x65, PARENB, INPCK),
      (0x4f, PARENB ||| PARODD, INPCK), (0x6f, PARENB ||| PARODD, INPCK)] := by
  unfold cpar at h
  split at h <;> cases h <;> decide

theorem bstop_cases {c : Byte} {f : Flags} (h : bstop c = some f) :
    (c, f) ∈ [(0x31, 0), (0x32, CSTOPB)] := by
  unfold bstop at h
  split at h <;> cases h <;> decide

theorem modeFlags_asked {mode : Bytes} {m : ModeFlags} (h : modeFlags mode = some m)
    (speed : Int) :
    asked speed mode =
      some ⟨speed, readData (framing m), readParity (framing m), readStop (framing m)⟩ := by
  unfold modeFlags at h
  split at h
  · next bits parity stop =>
    simp only [Option.bind_eq_bind, Option.bind_eq_some_iff] at h
    obtain ⟨cb, hbits, cp, hparity, bs, hstop, hm⟩ := h
    cases hm
    have hb := cbits_cases hbits
    have hp := cpar_cases hparity
    have hs := bstop_cases hstop
    simp only [List.mem_cons, List.not_mem_nil, or_false, Prod.mk.injEq] at hb hp hs
    rcases hb with ⟨rfl, rfl⟩ | ⟨rfl, rfl⟩ | ⟨rfl, rfl⟩ | ⟨rfl, rfl⟩ <;>
      rcases hp with ⟨rfl, rfl⟩ | ⟨rfl, rfl⟩ | ⟨rfl, rfl⟩ | ⟨rfl, rfl⟩ | ⟨rfl, rfl⟩ | ⟨rfl, rfl⟩ <;>
        rcases hs with ⟨rfl, rfl⟩ | ⟨rfl, rfl⟩ <;> rfl
  · cases h

/-- **The flags say what was asked.** -/
theorem curTCSett_line {speed : Int} {b : Flags} {mode : Bytes} {m : ModeFlags}
    (hb : baudr speed = some b) (hm : modeFlags mode = some m) :
    (curTCSett b m).line = asked speed mode := by
  have hmem := baudr_mem hb
  have hmasked : b &&& CBAUD = b := bauds_masked hmem
  obtain ⟨hdata, hparity, hstop⟩ := curTCSett_reads hmasked m
  have hspeed : readSpeed (curTCSett b m).cflag = some speed := by
    have hbits : (curTCSett b m).cflag &&& CBAUD = b := speed_bits _ hmasked
    rw [readSpeed, hbits, bauds_find hmem]
    rfl
  rw [Termios.line, hspeed, hdata, hparity, hstop, modeFlags_asked hm]
  rfl

/-! ## What is accepted -/

theorem cbits_isSome (c : Byte) : (cbits c).isSome = [0x38, 0x37, 0x36, 0x35].contains c := by
  unfold cbits
  split <;> simp_all

theorem cpar_isSome (c : Byte) :
    (cpar c).isSome = [0x4e, 0x6e, 0x45, 0x65, 0x4f, 0x6f].contains c := by
  unfold cpar
  split <;> simp_all

theorem bstop_isSome (c : Byte) : (bstop c).isSome = [0x31, 0x32].contains c := by
  unfold bstop
  split <;> simp_all

theorem modeFlags_isSome (mode : Bytes) :
    (modeFlags mode).isSome = SerialPort.modeAccepted mode := by
  match mode with
  | [bits, parity, stop] =>
    change _ = ([0x38, 0x37, 0x36, 0x35].contains bits &&
      [0x4e, 0x6e, 0x45, 0x65, 0x4f, 0x6f].contains parity && [0x31, 0x32].contains stop)
    rw [← cbits_isSome, ← cpar_isSome, ← bstop_isSome, modeFlags]
    cases cbits bits <;> cases cpar parity <;> cases bstop stop <;> rfl
  | [] | [_] | [_, _] | _ :: _ :: _ :: _ :: _ => rfl

theorem baudr_isSome (speed : Int) : (baudr speed).isSome ↔ speed ∈ SerialPort.baudrates := by
  rw [← bauds_rates, baudr, List.lookup_isSome_iff]
  simp only [List.mem_map, beq_iff_eq]
  exact exists_congr fun r => and_congr_right fun _ => eq_comm

/-! ## The text -/

theorem baudText_spec {speed : Int} {text : List Char} (h : baudText.lookup speed = some text) :
    ' ' ∉ text ∧ text.length ≤ 11 ∧ ∃ digits, text = "baud=".toList ++ digits ∧
      (number digits : Int) = speed := by
  have hall : ∀ r ∈ baudText, ' ' ∉ r.2 ∧ r.2.length ≤ 11 ∧ r.2 = "baud=".toList ++ r.2.drop 5 ∧
      (number (r.2.drop 5) : Int) = r.1 := by decide
  obtain ⟨l₁, l₂, heq, -⟩ := List.lookup_eq_some_iff.mp h
  have hmem : (speed, text) ∈ baudText := by
    rw [heq]
    exact List.mem_append_right _ List.mem_cons_self
  obtain ⟨hblank, hlen, htext, hnumber⟩ := hall _ hmem
  exact ⟨hblank, hlen, _, htext, hnumber⟩

theorem value_cons (key : String) {item : List Char} (h : ' ' ∉ item) (rest : List Char) :
    value key (item ++ ' ' :: rest) =
      (item.dropPrefix? (key.toList ++ ['='])).or (value key rest) := by
  unfold value
  rw [List.splitOn_append_cons_self_of_not_mem h, List.findSome?_cons]
  cases item.dropPrefix? (key.toList ++ ['=']) <;> rfl

/-- What follows the first item, with its blank. -/
structure Tail (mode : Bytes) (tail : List Char) : Prop where
  short : tail.length ≤ 38
  blank : ∃ rest, tail = ' ' :: rest ∧ ∃ data parity letter stop,
    value "data" rest = some data ∧ value "parity" rest = some letter ∧
      parityLetter letter = some parity ∧ value "stop" rest = some stop ∧
      ∀ speed, asked speed mode = some ⟨speed, number data, parity, number stop⟩

theorem dataText_cases {c : Byte} {t : List Char} (h : dataText c = some t) :
    (c, t) ∈ [(0x38, " data=8".toList), (0x37, " data=7".toList), (0x36, " data=6".toList),
      (0x35, " data=5".toList)] := by
  unfold dataText at h
  split at h <;> cases h <;> decide

theorem parityText_cases {c : Byte} {t : List Char} (h : parityText c = some t) :
    (c, t) ∈ [(0x4e, " parity=n".toList), (0x6e, " parity=n".toList),
      (0x45, " parity=e".toList), (0x65, " parity=e".toList), (0x4f, " parity=o".toList),
      (0x6f, " parity=o".toList)] := by
  unfold parityText at h
  split at h <;> cases h <;> decide

theorem stopText_cases {c : Byte} {t : List Char} (h : stopText c = some t) :
    (c, t) ∈ [(0x31, " stop=1".toList), (0x32, " stop=2".toList)] := by
  unfold stopText at h
  split at h <;> cases h <;> decide

theorem dataText_isSome (c : Byte) : (dataText c).isSome = (cbits c).isSome := by
  rw [cbits_isSome]
  unfold dataText
  split <;> simp_all

theorem parityText_isSome (c : Byte) : (parityText c).isSome = (cpar c).isSome := by
  rw [cpar_isSome]
  unfold parityText
  split <;> simp_all

theorem stopText_isSome (c : Byte) : (stopText c).isSome = (bstop c).isSome := by
  rw [bstop_isSome]
  unfold stopText
  split <;> simp_all

theorem isSome_three {α β γ δ : Type} (x : Option α) (y : Option β) (z : Option γ)
    (f : α → β → γ → δ) :
    (x.bind fun a => y.bind fun b => z.bind fun c => some (f a b c)).isSome =
      (x.isSome && y.isSome && z.isSome) := by
  cases x <;> cases y <;> cases z <;> rfl

theorem mode_str_isSome (speed : Int) (mode : Bytes) :
    (mode_str speed mode).isSome =
      ((baudText.lookup speed).isSome && SerialPort.modeAccepted mode) := by
  rw [← modeFlags_isSome, mode_str]
  cases baudText.lookup speed with
  | none => rfl
  | some baud =>
    match mode with
    | [bits, parity, stop] =>
      refine (isSome_three (dataText bits) (parityText parity) (stopText stop) fun d p s =>
        baud ++ d ++ p ++ s ++ " dtr=on rts=on".toList).trans ?_
      rw [dataText_isSome, parityText_isSome, stopText_isSome, modeFlags]
      cases cbits bits <;> cases cpar parity <;> cases bstop stop <;> rfl
    | [] | [_] | [_, _] | _ :: _ :: _ :: _ :: _ => rfl

theorem mode_str_tail {speed : Int} {mode : Bytes} {text : List Char}
    (h : mode_str speed mode = some text) :
    ∃ baud tail, baudText.lookup speed = some baud ∧ text = baud ++ tail ∧ Tail mode tail := by
  unfold mode_str at h
  simp only [Option.bind_eq_bind, Option.bind_eq_some_iff] at h
  obtain ⟨baud, hbaud, h⟩ := h
  split at h
  · next bits parity stop =>
    simp only [Option.bind_eq_some_iff] at h
    obtain ⟨d, hbits, p, hparity, s, hstop, htext⟩ := h
    refine ⟨baud, d ++ p ++ s ++ " dtr=on rts=on".toList, hbaud, ?_, ?_⟩
    · rw [← Option.some.inj htext]
      simp only [List.append_assoc]
    · have hb := dataText_cases hbits
      have hp := parityText_cases hparity
      have hs := stopText_cases hstop
      simp only [List.mem_cons, List.not_mem_nil, or_false, Prod.mk.injEq] at hb hp hs
      rcases hb with ⟨rfl, rfl⟩ | ⟨rfl, rfl⟩ | ⟨rfl, rfl⟩ | ⟨rfl, rfl⟩ <;>
        rcases hp with ⟨rfl, rfl⟩ | ⟨rfl, rfl⟩ | ⟨rfl, rfl⟩ | ⟨rfl, rfl⟩ | ⟨rfl, rfl⟩ |
            ⟨rfl, rfl⟩ <;>
          rcases hs with ⟨rfl, rfl⟩ | ⟨rfl, rfl⟩ <;>
            exact ⟨by decide, _, rfl, _, _, _, _, rfl, rfl, rfl, rfl, fun _ => rfl⟩
  · cases h

/-- **`mode_str` says what was asked**, and there is room for it. -/
theorem mode_str_line {speed : Int} {mode : Bytes} {text : List Char}
    (h : mode_str speed mode = some text) :
    text.length < 128 ∧ dcbLine text = asked speed mode := by
  obtain ⟨baud, tail, hbaud, rfl, htail⟩ := mode_str_tail h
  obtain ⟨hblank, hlen, digits, rfl, hnumber⟩ := baudText_spec hbaud
  obtain ⟨rest, rfl, data, parity, letter, stop, hdata, hletter, hparity, hstop, hasked⟩ :=
    htail.blank
  constructor
  · have htail := htail.short
    rw [List.length_append]
    omega
  · have hb : value "baud" ("baud=".toList ++ digits ++ ' ' :: rest) = some digits := by
      rw [value_cons _ hblank]
      cases digits <;> rfl
    have hd : value "data" ("baud=".toList ++ digits ++ ' ' :: rest) = some data := by
      rw [value_cons _ hblank, ← hdata]
      rfl
    have hp : value "parity" ("baud=".toList ++ digits ++ ' ' :: rest) = some letter := by
      rw [value_cons _ hblank, ← hletter]
      rfl
    have hs : value "stop" ("baud=".toList ++ digits ++ ' ' :: rest) = some stop := by
      rw [value_cons _ hblank, ← hstop]
      rfl
    rw [dcbLine, hb, hd, hp, hs, hasked]
    simp only [Option.bind_eq_bind, Option.bind_some, hparity, hnumber]
    rfl

/-- **The two systems set one line**: each accepts its own speeds with the same modes,
and what it sets, read back, is the speed and the mode that were asked for. -/
theorem same_line (speed : Int) (mode : Bytes) :
    ((mode_str speed mode).isSome ↔
        (baudText.lookup speed).isSome ∧ SerialPort.modeAccepted mode = true) ∧
      (∀ text, mode_str speed mode = some text →
        text.length < 128 ∧ (dcbLine text).isSome ∧ dcbLine text = asked speed mode) ∧
      ((baudr speed).isSome ↔ speed ∈ SerialPort.baudrates) ∧
      ((modeFlags mode).isSome ↔ SerialPort.modeAccepted mode = true) ∧
      ∀ b m, baudr speed = some b → modeFlags mode = some m →
        (curTCSett b m).line.isSome ∧ (curTCSett b m).line = asked speed mode := by
  refine ⟨?_, fun text h => ?_, baudr_isSome speed, ?_, fun b m hb hm => ?_⟩
  · rw [mode_str_isSome, Bool.and_eq_true]
  · obtain ⟨hlen, hline⟩ := mode_str_line h
    obtain ⟨baud, tail, -, -, htail⟩ := mode_str_tail h
    obtain ⟨rest, -, data, parity, letter, stop, -, -, -, -, hasked⟩ := htail.blank
    exact ⟨hlen, by rw [hline, hasked]; rfl, hline⟩
  · rw [modeFlags_isSome]
  · have hline := curTCSett_line hb hm
    exact ⟨by rw [hline, modeFlags_asked hm]; rfl, hline⟩

end Autocom.TermSettings
