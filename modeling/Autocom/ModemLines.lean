import Autocom.Lib.Bits
import Autocom.Lib.Lts

/-! # The modem lines on Linux

`enableDTR`, `disableDTR`, `enableRTS` and `disableRTS` read the status word,
change one bit of the copy and write it back. The state is the port's status
word; what the two `ioctl` calls answer and what the uninitialised local holds
belong to the call. After a failing `TIOCMGET` the four go on with the local,
while `CloseComport` writes nothing back. -/
namespace Autocom.ModemLines
open Autocom.Lib.Bits Autocom.Lib.Lts

abbrev Status := BitVec 32

def TIOCM_DTR : Status := 0x002
def TIOCM_RTS : Status := 0x004

/-- Which of the two calls succeed, and `int status;`. -/
structure Ioctls where
  tiocmget : Bool
  tiocmset : Bool
  status : Status
  deriving DecidableEq

/-- `ioctl(_port, TIOCMGET, &status)`: the local after it. -/
def Ioctls.get (os : Ioctls) (word : Status) : Status := if os.tiocmget then word else os.status

/-- `ioctl(_port, TIOCMSET, &status)`: the status word after it. -/
def Ioctls.set (os : Ioctls) (word status : Status) : Status :=
  if os.tiocmset then status else word

/-- A failing call is only reported by `perror`. -/
def change (update : Status → Status) (os : Ioctls) (word : Status) : Status :=
  let status := os.get word
  let status := update status
  os.set word status

def enableDTR : Ioctls → Status → Status := change fun status => status ||| TIOCM_DTR
def disableDTR : Ioctls → Status → Status := change fun status => status &&& ~~~TIOCM_DTR
def enableRTS : Ioctls → Status → Status := change fun status => status ||| TIOCM_RTS
def disableRTS : Ioctls → Status → Status := change fun status => status &&& ~~~TIOCM_RTS

/-- The modem lines in `CloseComport`. -/
def closeLines (os : Ioctls) (word : Status) : Status :=
  if os.tiocmget then
    let status := word &&& ~~~TIOCM_DTR
    let status := status &&& ~~~TIOCM_RTS
    os.set word status
  else word

/-! ## Sequences of calls -/

inductive Line
  | DTR
  | RTS
  deriving DecidableEq

/-- The position of its bit in the status word. -/
def Line.bit : Line → Nat
  | .DTR => 1
  | .RTS => 2

/-- One of the four calls: which line, to which value, and what it meets. -/
structure Call where
  line : Line
  value : Bool
  os : Ioctls
  deriving DecidableEq

def Call.run (c : Call) : Status → Status :=
  match c.line, c.value with
  | .DTR, true => enableDTR c.os
  | .DTR, false => disableDTR c.os
  | .RTS, true => enableRTS c.os
  | .RTS, false => disableRTS c.os

def step (word : Status) (c : Call) : Option Status := some (c.run word)

/-- The call left the status word as it was, or changed its own bit only. -/
def Isolated (word : Status) (c : Call) : Prop :=
  c.run word = word ∨ Switched c.line.bit c.value word (c.run word)

/-- The word was read, or is not written, or what the local held has the bits of
the other lines. -/
def Sound (word : Status) (c : Call) : Prop :=
  c.os.tiocmget = true ∨ c.os.tiocmset = false ∨ AgreeOff c.line.bit word c.os.status

/-! ## One call -/

theorem Line.bit_lt (l : Line) : l.bit < 32 := by cases l <;> decide

/-- The four calls differ in the line and the value only. -/
theorem Call.run_eq (c : Call) (word : Status) :
    c.run word = c.os.set word (switch c.line.bit c.value (c.os.get word)) := by
  obtain ⟨line, value, os⟩ := c
  cases line <;> cases value <;> rfl

theorem isolated_iff (word : Status) (c : Call) : Isolated word c ↔ Sound word c := by
  unfold Isolated Sound
  rw [c.run_eq]
  unfold Ioctls.set Ioctls.get
  by_cases hset : c.os.tiocmset = true
  · rw [if_pos hset, switch_other_iff c.line.bit_lt]
    by_cases hget : c.os.tiocmget = true
    · simp [hget, AgreeOff.refl]
    · simp [hget, hset]
  · rw [if_neg hset]
    simp [hset]

/-- `CloseComport` leaves the word alone when it cannot be read. -/
theorem closeLines_unread {os : Ioctls} (h : os.tiocmget = false) (word : Status) :
    closeLines os word = word := by
  simp [closeLines, h]

/-! ## Every sequence of calls -/

/-- **Modem-line changes are isolated exactly as long as no call writes back a
status word it could not read.** -/
theorem lines_isolated_iff (word : Status) (calls : List Call) :
    Meets step Isolated word calls ↔ Meets step Sound word calls :=
  meets_congr isolated_iff

/-- What the calls have in common to leave alone: all lines but DTR and RTS. -/
theorem other_lines_kept {word word' : Status} {calls : List Call}
    (hm : Meets step Sound word calls) (h : run step word calls = some word') (j : Nat)
    (hdtr : j ≠ Line.DTR.bit) (hrts : j ≠ Line.RTS.bit) : word'.getLsbD j = word.getLsbD j := by
  have hkept : ∀ s c t, s.getLsbD j = word.getLsbD j → Sound s c → step s c = some t →
      t.getLsbD j = word.getLsbD j := by
    intro s c t hs hc ht
    have hne : j ≠ c.line.bit := by cases c.line <;> assumption
    rw [← Option.some.inj ht]
    rcases (isolated_iff s c).mpr hc with heq | hswitched
    · rw [heq, hs]
    · rw [hswitched.others j hne, hs]
  exact run_keeps hkept rfl hm h

/-- `enableDTR` with CTS on (bit 5) when the word cannot be read but can be
written, and the local holds 0. -/
def unread : Call := ⟨.DTR, true, ⟨false, true, 0⟩⟩

/-- The call switches DTR on and CTS off. -/
theorem unread_changes_others : ¬ Meets step Isolated 0x020 [unread] := by
  rintro ⟨hisolated, -⟩
  rcases hisolated with heq | hswitched
  · exact absurd heq (by decide)
  · exact absurd (hswitched.others 5 (by decide)) (by decide)

end Autocom.ModemLines
