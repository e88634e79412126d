import Autocom.TermSettings

/-! # The settings of the terminals over the life of a `SerialComm`

`OpenComport` keeps the settings that it found in `_oldTCSett`, and `CloseComport`
puts them back. `~SerialPort` closes descriptor 0 whatever became of the port, and
so puts them on the terminal behind it as well. Nothing else opens or closes a
descriptor meanwhile. -/
namespace Autocom.TermLives
open Autocom Autocom.TermSettings Autocom.Lib.Lts

/-! ## Terminals and descriptors -/

/-- `behind` is the terminal that a descriptor is open on. -/
structure Terminals where
  behind : Int → Option Nat
  settings : Nat → Termios

namespace Terminals

def opened (w : Terminals) (fd : Int) (tty : Nat) : Terminals :=
  { w with behind := Function.update w.behind fd (some tty) }

/-- A descriptor that is not open is not closed. -/
def close (w : Terminals) (fd : Int) : Terminals :=
  { w with behind := Function.update w.behind fd none }

/-- `ok` is whether the call succeeds on a terminal. -/
def tcsetattr (w : Terminals) (fd : Int) (t : Termios) (ok : Bool) : Terminals :=
  match w.behind fd with
  | some tty => if ok then { w with settings := Function.update w.settings tty t } else w
  | none => w

end Terminals

/-! ## `SerialPort` and `SerialComm` -/

/-- `port` is `_port`, `oldTCSett` is `_oldTCSett`. -/
structure Port where
  port : Int
  oldTCSett : Termios

/-- `os` and the terminal that the name stands for; `restored` is whether the old
settings can be put back. -/
structure Outcome where
  os : OpenOutcome
  tty : Nat
  restored : Bool

def openComport (p : Port) (w : Terminals) (baudrate : Int) (mode : Option Bytes) (e : Outcome) :
    Option (Port × Terminals × Int) :=
  match baudr baudrate with
  | none => some (p, w, 1)
  | some b =>
    match mode with
    | none => none
    | some mode =>
      match modeFlags mode with
      | none => some (p, w, 1)
      | some m =>
        match e.os.open_ with
        | none => some ({ p with port := -1 }, w, -1)
        | some fd =>
          let p := { p with port := fd }
          let w := w.opened fd e.tty
          if ! e.os.flock then some (p, w.close fd, 1)
          else if ! e.os.tcgetattr then some (p, w.close fd, 1)
          else
            let p := { p with oldTCSett := w.settings e.tty }
            if ! e.os.tcsetattr then
              some ({ p with port := 0 }, (w.tcsetattr fd p.oldTCSett e.restored).close fd, 1)
            else
              let w := w.tcsetattr fd (curTCSett b m) true
              if ! e.os.tiocmget then some (p, w.tcsetattr fd p.oldTCSett e.restored, 1)
              else if ! e.os.tiocmset then some (p, w.tcsetattr fd p.oldTCSett e.restored, 1)
              else some (p, w, 0)

def closeComport (p : Port) (w : Terminals) (restored : Bool) : Port × Terminals :=
  ({ p with port := 0 }, (w.tcsetattr p.port p.oldTCSett restored).close p.port)

structure Comm where
  credentials : Bytes
  device : Port
  terminals : Terminals

namespace Comm

def open_ (c : Comm) (e : Outcome) : Option (Comm × Int) := do
  let (_, speed, mode) ← SerialComm.fields c.credentials
  let (device, terminals, rv) ← openComport c.device c.terminals (atoi speed) mode e
  return (⟨strtokCut c.credentials, device, terminals⟩, rv)

def close (c : Comm) (restored : Bool) : Comm :=
  if c.device.port ≠ 0 then
    let (device, terminals) := closeComport c.device c.terminals restored
    ⟨c.credentials, device, terminals⟩
  else c

/-- `~SerialComm`, then `~SerialPort`. -/
def destroy (c : Comm) (restored : Bool) : Comm :=
  let c := c.close restored
  let (device, terminals) := closeComport c.device c.terminals restored
  ⟨c.credentials, device, terminals⟩

end Comm

inductive Op
  | open_ (e : Outcome)
  | close (restored : Bool)
  | destroy (restored : Bool)

def Op.restored : Op → Bool
  | .open_ e => e.restored
  | .close restored | .destroy restored => restored

structure Life where
  comm : Comm
  destroyed : Bool

/-- `SerialPort()` leaves its members as the memory was. -/
def Life.init (garbage : Port) (w : Terminals) (cred : CString) : Life :=
  ⟨⟨cred.bytes, garbage, w⟩, false⟩

def step (l : Life) (op : Op) : Option Life :=
  if l.destroyed then none
  else match op with
    | .open_ e => (l.comm.open_ e).map fun r => ⟨r.1, false⟩
    | .close restored => some ⟨l.comm.close restored, false⟩
    | .destroy restored => some ⟨l.comm.destroy restored, true⟩

/-! ## The descriptor is that of `SerialPort` -/

/-- The terminals apart, this is `SerialPort.openComport`. -/
theorem openComport_port (p : Port) (w : Terminals) (calls : List Syscall) (comname : Bytes)
    (baudrate : Int) (mode : Option Bytes) (e : Outcome) :
    (openComport p w baudrate mode e).map (fun r => (r.1.port, r.2.2)) =
      (SerialPort.openComport ⟨p.port, calls⟩ comname baudrate mode e.os).map
        fun r => (r.1.port, r.2) := by
  have hspeed := baudr_isSome baudrate
  unfold openComport SerialPort.openComport
  cases hb : baudr baudrate with
  | none =>
    rw [hb] at hspeed
    rw [if_pos fun h => nomatch hspeed.mpr h]
    rfl
  | some b =>
    rw [hb] at hspeed
    rw [if_neg (not_not.mpr (hspeed.mp rfl))]
    cases mode with
    | none => rfl
    | some mode =>
      have hmode := modeFlags_isSome mode
      simp only [← hmode]
      cases modeFlags mode with
      | none => rfl
      | some m =>
        cases e.os.open_ with
        | none => rfl
        | some fd =>
          cases e.os.flock <;> cases e.os.tcgetattr <;> cases e.os.tcsetattr <;>
            cases e.os.tiocmget <;> cases e.os.tiocmset <;> rfl

/-! ## What closing leaves -/

namespace Terminals

variable {w : Terminals} {fd : Int} {tty : Nat}

end Terminals

/-- The end of a life, in terms of the device and the terminals. -/
def finish (p : Port) (w : Terminals) : Terminals :=
  ((if p.port ≠ 0 then (closeComport p w true).2 else w).tcsetattr 0 p.oldTCSett true).close 0

/-- A `close` before the destructor takes nothing from it. -/
theorem destroy_terminals (c : Comm) :
    (c.destroy true).terminals = finish c.device c.terminals := by
  by_cases hport : c.device.port = 0
  · have hclose : c.close true = c := if_neg (not_not.mpr hport)
    rw [Comm.destroy, hclose, finish, if_neg (not_not.mpr hport), closeComport, hport]
  · have hclose : c.close true = ⟨c.credentials, (closeComport c.device c.terminals true).1,
        (closeComport c.device c.terminals true).2⟩ := if_pos hport
    rw [Comm.destroy, hclose, finish, if_pos hport]
    rfl

theorem finish_close (c : Comm) :
    finish (c.close true).device (c.close true).terminals = finish c.device c.terminals := by
  unfold Comm.close
  split
  · next h =>
    conv_rhs => rw [finish, if_pos h]
    rfl
  · rfl

/-- After an `open` there are only `close`s, up to the destructor. -/
theorem run_spent {l t : Life} {ops : List Op} (hl : l.destroyed = false)
    (ht : t.destroyed = true) (hspent : SerialComm.fields l.comm.credentials = none)
    (hrestored : ∀ op ∈ ops, op.restored = true) (h : run step l ops = some t) :
    t.comm.terminals = finish l.comm.device l.comm.terminals := by
  induction ops generalizing l with
  | nil =>
    cases h
    rw [hl] at ht
    cases ht
  | cons op ops ih =>
    obtain ⟨m, hstep, hrest⟩ := run_cons.mp h
    have hop : op.restored = true := hrestored op List.mem_cons_self
    have hops : ∀ op ∈ ops, op.restored = true := fun op hmem =>
      hrestored op (List.mem_cons_of_mem _ hmem)
    simp only [step, hl, Bool.false_eq_true, if_false] at hstep
    cases op with
    | open_ e =>
      simp [Comm.open_, hspent] at hstep
    | close restored =>
      obtain rfl : restored = true := hop
      cases hstep
      have hcred : (l.comm.close true).credentials = l.comm.credentials := by
        unfold Comm.close
        split <;> rfl
      rw [ih rfl (by rw [hcred]; exact hspent) hops hrest]
      exact finish_close l.comm
    | destroy restored =>
      obtain rfl : restored = true := hop
      cases hstep
      cases ops with
      | nil =>
        cases hrest
        exact destroy_terminals l.comm
      | cons op ops =>
        obtain ⟨m', hnext, -⟩ := run_cons.mp hrest
        cases hnext

end Autocom.TermLives
