import Autocom.Receive
import Autocom.SendBuf
import Autocom.Transmit

/-! # The IO thread over the Linux `SerialPort`

`Autocom.Machine` takes `sendTo` and `recFrom` at their contract. Here the two
are the code of `SerialComm` and `SerialPort`: `SendBuf` is entered with a
reading of the clock and makes one `write` a step, `Read` asks `select` and then
reads what the driver holds. Everything else is a step of that machine, so a run
here is a run there as long as the code keeps the contract. -/
namespace Autocom.LinuxIo
open Autocom Autocom.Lib Autocom.Lib.Lts Autocom.Machine
open Autocom.Expect (Regex)
open Autocom.SendBuf (Poll linuxBefore)
open Autocom.Transmit (timesOut)

/-! ## The state -/

/-- The IO thread is inside `SendBuf`, or where `thread_main` is. -/
inductive Pc
  | main (pc : IoPc)
  | sendBuf (temp : Bytes) (left : Nat) (start : BitVec 64) (to_ : BitVec 32)

/-- `timout` is `_timout`, `rx` what waits in the driver. The history `arrived`,
which no branch looks at, is all that the driver has taken from the line. -/
structure Lin where
  dev : Dev
  script : ScriptPc
  io : Pc
  timout : BitVec 32
  rx : Bytes
  arrived : Bytes

/-- Inside `SendBuf` the contract sees the end of the buffer as what is left. -/
def Pc.contract : Pc → IoPc
  | .main pc => pc
  | .sendBuf temp left _ _ => .sending temp (temp.drop (temp.length - left))

def Lin.sys (s : Lin) : Sys := ⟨s.dev, s.script, s.io.contract⟩

/-- The place of the IO thread after a step of the machine, which leaves it in
`SendBuf` or takes it out with the process. -/
def Pc.after : Pc → IoPc → Pc
  | .sendBuf temp left start to_, .sending _ _ => .sendBuf temp left start to_
  | _, pc => .main pc

def Lin.init (cred : CString) (proc : Option CString) : Lin :=
  ⟨Dev.init proc, .constructing cred, .main .absent, 64, [], []⟩

/-! ## The steps -/

/-- What `select` and `read` answer: the descriptor is not readable, or `read`
returns 0 or -1, or it returns `n` bytes. -/
inductive ReadOutcome
  | idle
  | nothing
  | bytes (n : Nat)

/-- `SerialPort::Read(buf, size, to)` on what waits in the driver: the bytes it
stores. It returns 0 for the end of the line and for a failure too. -/
def read (rx : Bytes) (size : Nat) : ReadOutcome → Option Bytes
  | .idle | .nothing => some []
  | .bytes n => if 0 < n ∧ n ≤ size ∧ n ≤ rx.length then some (rx.take n) else none

inductive LinAct
  | base (a : Act)
  | enter (tick : BitVec 64)
  | write (p : Poll (BitVec 64))
  | read (o : ReadOutcome)
  | arrive (bs : Bytes)

/-- The actions of the machine that are code here: the call of `sendTo`, what it
writes and returns, and what `recFrom` returns. -/
def replaced (s : Lin) : Act → Bool
  | .io .step =>
    match s.io with
    | .main (.calling _) => true
    | _ => false
  | .io (.wrote _) | .io (.sent _) | .io (.received _) => true
  | _ => false

/-- `_pc->setTout(to)` in `settimeout`. -/
def timoutAfter (timout : BitVec 32) : Act → BitVec 32
  | .script (.act (.call (.settimeout to_) _)) => BitVec.ofInt 32 to_
  | .io (.callback (.call (.settimeout to_) _)) => BitVec.ofInt 32 to_
  | _ => timout

/-- A `write` on a port that was closed meanwhile goes to descriptor 0. -/
def onWire (d : Dev) (bytes : Bytes) : Dev :=
  if d.pc = some true then { d with log := { d.log with wire := d.log.wire ++ bytes } } else d

def step (regex : Regex) (s : Lin) : LinAct → Option Lin
  | .base a =>
    if replaced s a then none
    else (Machine.step regex s.sys a).map fun t =>
      { s with
        dev := t.dev
        script := t.script
        io := s.io.after t.io
        timout := timoutAfter s.timout a
        -- `CloseComport` flushes both directions
        rx := if t.dev.pc = some true then s.rx else [] }
  | .enter tick =>
    match s.io with
    | .main (.calling temp) =>
      if s.dev.pc = some true then
        some { s with io := .sendBuf temp temp.length tick s.timout }
      else some { s with io := .main .leaving }
    | _ => none
  | .write p =>
    match s.io with
    | .sendBuf temp left start to_ =>
      let sent := 0
      match SendBuf.write ((temp.drop sent).take left) p.outcome with
      | none => some { s with io := .main .leaving }
      | some bytes =>
        let left := left - bytes.length
        let d := onWire s.dev bytes
        if left > 0 ∧ linuxBefore start to_ p.tick = true then
          some { s with dev := d, io := .sendBuf temp left start to_ }
        else if left = 0 then
          some { s with
            dev := { d with log := { d.log with acked := d.log.acked ++ temp } }
            io := .main .receiving }
        else some { s with dev := d, io := .main .receiving }
    | _ => none
  | .read o =>
    match s.io with
    | .main .receiving =>
      if s.dev.pc = some true then
        (read s.rx (RECBUFF - 1) o).map fun shot =>
          if shot = [] then { s with io := .main .loop }
          else { s with
            dev := { s.dev with log := { s.dev.log with received := s.dev.log.received ++ shot } }
            io := .main (.storing shot)
            rx := s.rx.drop shot.length }
      else some { s with io := .main .leaving }
    | _ => none
  | .arrive bs =>
    some (if s.dev.pc = some true then { s with rx := s.rx ++ bs, arrived := s.arrived ++ bs }
      else s)

/-! ## `Read` -/

/-- `Read` takes the front of what waits. -/
theorem read_append {rx shot : Bytes} {size : Nat} {o : ReadOutcome}
    (h : read rx size o = some shot) : shot ++ rx.drop shot.length = rx := by
  unfold read at h
  split at h
  · cases h; rfl
  · cases h; rfl
  · split at h
    · next hn =>
      cases h
      rw [List.length_take, Nat.min_eq_left hn.2.2, List.take_append_drop]
    · cases h

/-! ## What the IO thread has in hand -/

/-- `hasOutput` was true when the queue is fetched, and nobody else empties it;
so no call of `sendTo` is for nothing. -/
structure Loaded (s : Sys) : Prop where
  fetch : s.io = .fetch → s.dev.io.out_ ≠ []
  calling : ∀ temp, s.io = .calling temp → temp ≠ []

theorem Loaded.idle {s : Sys} (hf : s.io ≠ .fetch) (hc : ∀ temp, s.io ≠ .calling temp) :
    Loaded s :=
  ⟨fun h => absurd h hf, fun temp h => absurd h (hc temp)⟩

/-- A step of a call does not empty the queue. -/
theorem Loaded.call {s : Sys} (h : Loaded s) {d : Dev} {pc pc' : CallPc}
    (heffect : CallEffect s.dev pc d pc') (sc : ScriptPc) : Loaded ⟨d, sc, s.io⟩ := by
  refine ⟨fun hio => ?_, h.calling⟩
  have hout := h.fetch hio
  cases heffect.moved with
  | keep io _ => rw [io]; exact hout
  | queue bs io _ =>
    rw [io, IoData.putOut_out]
    exact fun hnil => hout (List.append_eq_nil_iff.mp hnil).1
  | drain text replies io _ _ => rw [io]; exact hout

theorem step_loaded {regex : Regex} {s t : Sys} {a : Act} (h : Loaded s)
    (hstep : Machine.step regex s a = some t) : Loaded t := by
  refine step_induct (Q := Loaded) ?_ ?_ ?_ hstep
  · exact fun _ _ => .idle nofun nofun
  · intro b d pc _ hmove
    obtain ⟨dev, sc, io⟩ := s
    cases hmove with
    | pending hout => exact ⟨fun _ => hout, nofun⟩
    | fetch =>
      refine ⟨nofun, fun temp htemp => ?_⟩
      cases htemp
      exact h.fetch rfl
    | stored shot pc hpc => rcases hpc with rfl | rfl <;> exact .idle nofun nofun
    | _ => exact .idle nofun nofun
  · intro b d pc io _ hmove
    obtain ⟨dev, sc, io₀⟩ := s
    cases hmove with
    | call pc pc' a d' hcall => exact h.call (callStep_effect hcall) _
    | started | unstarted | nullClose => exact .idle nofun nofun
    | _ => exact ⟨h.fetch, h.calling⟩

/-- The script is not inside an aborted call, and `SendBuf` has bytes left. -/
structure Inv (s : Lin) : Prop where
  running : s.script ≠ .running .aborted
  loaded : Loaded s.sys
  sending : ∀ temp left start to_, s.io = .sendBuf temp left start to_ →
    0 < left ∧ left ≤ temp.length

theorem inv_init (cred : CString) (proc : Option CString) : Inv (Lin.init cred proc) :=
  ⟨nofun, .idle nofun nofun, nofun⟩

/-! ## A step of the machine -/

/-- Only a `write` moves the contract's view of `SendBuf` along. -/
theorem step_sending {regex : Regex} {s u : Sys} {a : Act} {temp left : Bytes}
    (hio : s.io = .sending temp left) (hcode : ∀ n, a ≠ .io (.wrote n))
    (h : Machine.step regex s a = some u) :
    ∀ temp' left', u.io = .sending temp' left' → u.io = .sending temp left := by
  refine step_induct
    (Q := fun u => ∀ temp' left', u.io = .sending temp' left' → u.io = .sending temp left)
    ?_ ?_ ?_ h
  · exact fun _ _ => nofun
  · intro b d pc hb hmove
    rw [hio] at hmove
    cases hmove with
    | wrote temp left n => exact absurd hb (hcode n)
    | _ => nofun
  · intro b d pc io _ hmove
    obtain ⟨dev, sc, io₀⟩ := s
    obtain rfl : io₀ = .sending temp left := hio
    cases hmove with
    | started | unstarted | nullClose => nofun
    | _ => exact fun _ _ _ => rfl

theorem contract_after {regex : Regex} {s : Lin} {u : Sys} {a : Act}
    (hcode : replaced s a = false) (h : Machine.step regex s.sys a = some u) :
    (s.io.after u.io).contract = u.io := by
  cases hio : s.io with
  | main pc => rfl
  | sendBuf temp left start to_ =>
    have hstay := step_sending (by rw [Lin.sys, hio]; rfl)
      (fun n ha => by rw [ha] at hcode; cases hcode) h
    cases hu : u.io with
    | sending temp' left' =>
      rw [hu] at hstay
      exact (hstay temp' left' rfl).symm
    | _ => rfl

theorem settle_script_ne (s : Sys) : s.settle.script ≠ .running .aborted := by
  unfold Sys.settle
  split
  · nofun
  · nofun
  · next hsc _ => exact hsc

theorem step_script_ne {regex : Regex} {s t : Sys} {a : Act}
    (h : Machine.step regex s a = some t) : t.script ≠ .running .aborted := by
  cases a with
  | io b =>
    obtain ⟨r, -, rfl⟩ := Option.map_eq_some_iff.mp h
    exact settle_script_ne _
  | script b =>
    obtain ⟨r, -, rfl⟩ := Option.map_eq_some_iff.mp h
    exact settle_script_ne _

/-- What a step of the machine does here. -/
theorem base_step {regex : Regex} {s t : Lin} {a : Act}
    (h : step regex s (.base a) = some t) :
    replaced s a = false ∧ Machine.step regex s.sys a = some t.sys := by
  simp only [step] at h
  split at h
  · cases h
  · next hcode =>
    have hcode := Bool.eq_false_iff.mpr hcode
    obtain ⟨u, hu, rfl⟩ := Option.map_eq_some_iff.mp h
    refine ⟨hcode, ?_⟩
    rw [hu, Lin.sys, contract_after hcode hu]

/-- The IO thread leaves the calls: nothing is in hand. -/
theorem Inv.returned {s : Lin} (h : Inv s) {t : Lin} (hsc : t.script = s.script) (pc : IoPc)
    (hio : t.io = .main pc) (hf : pc ≠ .fetch) (hc : ∀ temp, pc ≠ .calling temp) : Inv t := by
  refine ⟨hsc ▸ h.running, .idle ?_ ?_, fun temp left start to_ hsend => ?_⟩
  · rw [Lin.sys, hio]; exact hf
  · rw [Lin.sys, hio]; exact hc
  · rw [hio] at hsend; cases hsend

theorem step_inv {regex : Regex} {s t : Lin} {a : LinAct} (h : Inv s)
    (hstep : step regex s a = some t) : Inv t := by
  cases a with
  | base a =>
    obtain ⟨hcode, hbase⟩ := base_step hstep
    refine ⟨step_script_ne hbase, step_loaded h.loaded hbase, ?_⟩
    intro temp left start to_ hsend
    simp only [step, hcode, Bool.false_eq_true, if_false] at hstep
    obtain ⟨u, -, rfl⟩ := Option.map_eq_some_iff.mp hstep
    unfold Pc.after at hsend
    split at hsend
    · next hio _ => cases hsend; exact h.sending _ _ _ _ hio
    · cases hsend
  | enter tick =>
    simp only [step] at hstep
    split at hstep
    · next temp hio =>
      split at hstep
      · cases hstep
        refine ⟨h.running, .idle nofun nofun, ?_⟩
        rintro temp' left start to_ hsend
        cases hsend
        have hne := h.loaded.calling temp (by rw [Lin.sys, hio]; rfl)
        exact ⟨List.length_pos_iff.mpr hne, le_rfl⟩
      · cases hstep; exact h.returned rfl .leaving rfl nofun nofun
    · cases hstep
  | write p =>
    simp only [step] at hstep
    split at hstep
    · next temp left start to_ hio =>
      split at hstep
      · cases hstep; exact h.returned rfl .leaving rfl nofun nofun
      · next bytes hbytes =>
        split at hstep
        · next hleft =>
          cases hstep
          refine ⟨h.running, .idle nofun nofun, ?_⟩
          rintro _ _ _ _ hsend
          cases hsend
          have hle := (h.sending temp left start to_ hio).2
          exact ⟨hleft.1, by omega⟩
        · split at hstep
          · cases hstep; exact h.returned rfl .receiving rfl nofun nofun
          · cases hstep; exact h.returned rfl .receiving rfl nofun nofun
    · cases hstep
  | read o =>
    simp only [step] at hstep
    split at hstep
    · split at hstep
      · obtain ⟨shot, -, rfl⟩ := Option.map_eq_some_iff.mp hstep
        split
        · exact h.returned rfl .loop rfl nofun nofun
        · exact h.returned rfl (.storing shot) rfl nofun nofun
      · cases hstep; exact h.returned rfl .leaving rfl nofun nofun
    · cases hstep
  | arrive bs =>
    cases hstep
    split
    · exact ⟨h.running, h.loaded, h.sending⟩
    · exact h

/-! ## The code keeps the contract -/

/-- The `write` leaves bytes over and the deadline has passed: `SendBuf` returns 1. -/
def expires (s : Lin) : LinAct → Bool
  | .write p =>
    match s.io with
    | .sendBuf temp left start to_ =>
      match SendBuf.write (temp.take left) p.outcome with
      | some bytes => decide (0 < left - bytes.length) && ! linuxBefore start to_ p.tick
      | none => false
    | _ => false
  | _ => false

/-- The system takes bytes from this `write` only if it took none from an earlier
one of the same call, and the port is still open. -/
def OneWrite (s : Lin) : LinAct → Prop
  | .write p =>
    match s.io with
    | .sendBuf temp left _ _ => p.count = 0 ∨ (left = temp.length ∧ s.dev.pc = some true)
    | _ => True
  | _ => True

instance decidableOneWrite (s : Lin) : (a : LinAct) → Decidable (OneWrite s a)
  | .write p =>
    match s with
    | ⟨dev, _, .sendBuf temp left _ _, _, _, _⟩ =>
      inferInstanceAs (Decidable (p.count = 0 ∨ (left = temp.length ∧ dev.pc = some true)))
    | ⟨_, _, .main _, _, _, _⟩ => isTrue trivial
  | .base _ | .enter _ | .read _ | .arrive _ => isTrue trivial

/-- `SendBuf` puts bytes on the line with one `write`, and not too late. -/
def Delivers (s : Lin) (a : LinAct) : Prop := OneWrite s a ∧ expires s a = false

instance decidableDelivers (s : Lin) (a : LinAct) : Decidable (Delivers s a) :=
  inferInstanceAs (Decidable (OneWrite s a ∧ expires s a = false))

end Autocom.LinuxIo
