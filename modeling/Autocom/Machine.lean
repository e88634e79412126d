import Autocom.Device
import Autocom.Lib.Lts

/-! # A `Device` and its two threads

The script thread constructs the device, makes calls and destroys it; the IO
thread runs `thread_main`. One action is one step of one thread, and an
interleaving is a list of actions. What the operating system decides is part of
the action: the outcome of `open`, how far `sendTo` gets and what it returns,
what `recFrom` delivers. `sendTo` is taken at its contract: it puts a prefix of
its argument on the wire and returns 0 for all of it, 1 on a timeout and -1 on
an error.

A callback runs on the IO thread, inside `_onReceived`, and makes calls like
the script; it does not delete the device. -/
namespace Autocom.Machine
open Autocom
open Autocom.Expect (Regex Turn)
open Autocom.Lib.Lts (run)

/-! ## The threads -/

/-- Where the IO thread is in `thread_main`; `absent` before `start_thread`,
`gone` with the process. -/
inductive IoPc
  | absent
  | opening
  | entering
  | loop
  | poll
  | fetch
  | calling (temp : Bytes)
  | sending (temp left : Bytes)
  | receiving
  | storing (shot : Bytes)
  | notifying (pc : CallPc)
  | closing
  | leaving
  | ending
  | ended
  | gone

/-- Where the script thread is. `ctorWait` is the loop on `_cancall`, `dtorClose`
is about to call `_pc->close()`, `dtorWait` is the loop on `_ended`. -/
inductive ScriptPc
  | constructing (cred : CString)
  | starting
  | ctorWait
  | running (pc : CallPc)
  | dtorClose
  | dtorStop
  | dtorWait
  | destroyed
  | gone

structure Sys where
  dev : Dev
  script : ScriptPc
  io : IoPc

inductive IoAct
  | step
  | opened (rv : Int) (port : Bool)
  | wrote (n : Nat)
  | sent (rv : Int)
  | received (shot : Option Bytes)
  | callback (a : CallAct)

inductive ScriptAct
  | step
  | started (ok : Bool)
  | act (a : CallAct)
  | destroy

inductive Act
  | io (a : IoAct)
  | script (a : ScriptAct)

/-! ## `thread_main` -/

def RECBUFF : Nat := 4096

def ioStep (regex : Regex) (d : Dev) : IoPc → IoAct → Option (Dev × IoPc)
  -- `OpenComport` may fail and leave a descriptor in `_port`
  | .opening, .opened rv port =>
    if rv = 0 then some ({ d with pc := some true }, .entering)
    else some ({ d with pc := some port }, .leaving)
  | .entering, .step => some ({ d with cancall := true }, .loop)
  | .loop, .step => some (d, if d.alive then .poll else .closing)
  | .poll, .step => some (d, if d.io.hasOutput then .fetch else .receiving)
  | .fetch, .step =>
    let (temp, io) := d.io.getOut
    some ({ d with io := io }, .calling temp)
  | .calling temp, .step =>
    some (d, if d.pc = some true then .sending temp temp else .leaving)
  | .sending temp left, .wrote n =>
    some ({ d with log := { d.log with wire := d.log.wire ++ left.take n } },
      .sending temp (left.drop n))
  | .sending temp left, .sent rv =>
    if rv = 0 ∧ left = [] then
      some ({ d with log := { d.log with acked := d.log.acked ++ temp } }, .receiving)
    else if rv = 1 ∧ left ≠ [] then some (d, .receiving)
    else if rv = -1 ∧ left ≠ [] then some (d, .leaving)
    else none
  | .receiving, .received none => some (d, .leaving)
  | .receiving, .received (some shot) =>
    if d.pc = some true ∧ shot.length ≤ RECBUFF - 1 then
      if shot = [] then some (d, .loop)
      else some ({ d with log := { d.log with received := d.log.received ++ shot } },
        .storing shot)
    else none
  | .storing shot, .step =>
    some ({ d with
        io := d.io.putIn shot
        log := { d.log with stored := d.log.stored ++ shot } },
      if d.outproc = [] then .loop else .notifying (.ready .void))
  | .notifying pc, .callback a => (callStep regex d pc a).map fun r => (r.1, .notifying r.2)
  | .notifying (.ready _), .step => some (d, .loop)
  | .closing, .step => some (d.shut, .leaving)
  | .leaving, .step => some (if d.pc = some true then d.shut else d, .ending)
  | .ending, .step => some ({ d with ended := true }, .ended)
  | _, _ => none

/-! ## The constructor, the calls and the destructor -/

/-- `"tty://"`. -/
def TTY : Bytes := [0x74, 0x74, 0x79, 0x3a, 0x2f, 0x2f]

/-- `!strncmp(cred,"tty://",6)`. -/
def isTty (cred : CString) : Bool := TTY.isPrefixOf cred.bytes

def scriptStep (regex : Regex) (d : Dev) (io : IoPc) :
    ScriptPc → ScriptAct → Option (Dev × ScriptPc × IoPc)
  | .constructing cred, .step =>
    if isTty cred then
      some ({ d with pc := some false, alive := true, cancall := false }, .starting, io)
    else some (d, .running (.ready .void), io)
  -- `::exit(errno)` when the thread cannot be started
  | .starting, .started ok => some (if ok then (d, .ctorWait, .opening) else (d, .gone, .gone))
  | .ctorWait, .step => some (d, if d.cancall then .running (.ready .void) else .ctorWait, io)
  | .running pc, .act a => (callStep regex d pc a).map fun r => (r.1, .running r.2, io)
  | .running (.ready _), .destroy => some (d, .dtorClose, io)
  | .dtorClose, .step =>
    some (if d.pc = none then (d, .gone, .gone) else (d.shut, .dtorStop, io))
  | .dtorStop, .step => some ({ d with alive := false }, .dtorWait, io)
  | .dtorWait, .step =>
    some (if d.ended then ({ d with pc := none }, .destroyed, io) else (d, .dtorWait, io))
  | _, _ => none

/-! ## The system -/

/-- An abort inside a call, on either thread, ends the process. -/
def Sys.settle (s : Sys) : Sys :=
  match s.script, s.io with
  | .running .aborted, _ => { s with script := .gone, io := .gone }
  | _, .notifying .aborted => { s with script := .gone, io := .gone }
  | _, _ => s

def step (regex : Regex) (s : Sys) : Act → Option Sys
  | .io a => (ioStep regex s.dev s.io a).map fun r => (Sys.mk r.1 s.script r.2).settle
  | .script a =>
    (scriptStep regex s.dev s.io s.script a).map fun r => (Sys.mk r.1 r.2.1 r.2.2).settle

/-- `Device(cred, proc)` is about to run. -/
def Sys.init (cred : CString) (proc : Option CString) : Sys :=
  ⟨Dev.init proc, .constructing cred, .absent⟩

def Reachable (regex : Regex) (cred : CString) (proc : Option CString) (s : Sys) : Prop :=
  ∃ acts, run (step regex) (Sys.init cred proc) acts = some s

/-! ## A device that is up -/

def ttyCred : CString := ⟨TTY, by decide⟩

/-- The device is up and the IO thread is at the head of its loop. -/
def connect : List Act :=
  [.script .step, .script (.started true), .io (.opened 0 true), .io .step, .script .step]

def charC : CString := ⟨[0x63], by decide⟩

/-! ## What a step can be -/

inductive IoMove (regex : Regex) (d : Dev) : IoPc → IoAct → Dev → IoPc → Prop
  | opened (port : Bool) :
    IoMove regex d .opening (.opened 0 port) { d with pc := some true } .entering
  | refused (rv : Int) (port : Bool) (hrv : rv ≠ 0) :
    IoMove regex d .opening (.opened rv port) { d with pc := some port } .leaving
  | enter : IoMove regex d .entering .step { d with cancall := true } .loop
  | again (halive : d.alive = true) : IoMove regex d .loop .step d .poll
  | stop (halive : d.alive = false) : IoMove regex d .loop .step d .closing
  | pending (hout : d.io.out_ ≠ []) : IoMove regex d .poll .step d .fetch
  | silent (hout : d.io.out_ = []) : IoMove regex d .poll .step d .receiving
  | fetch : IoMove regex d .fetch .step { d with io := { d.io with out_ := [] } }
      (.calling d.io.out_)
  | sendTo (temp : Bytes) (hpc : d.pc = some true) :
    IoMove regex d (.calling temp) .step d (.sending temp temp)
  | unsendable (temp : Bytes) (hpc : d.pc ≠ some true) :
    IoMove regex d (.calling temp) .step d .leaving
  | wrote (temp left : Bytes) (n : Nat) :
    IoMove regex d (.sending temp left) (.wrote n)
      { d with log := { d.log with wire := d.log.wire ++ left.take n } }
      (.sending temp (left.drop n))
  | sentAll (temp : Bytes) :
    IoMove regex d (.sending temp []) (.sent 0)
      { d with log := { d.log with acked := d.log.acked ++ temp } } .receiving
  | timedOut (temp left : Bytes) (hleft : left ≠ []) :
    IoMove regex d (.sending temp left) (.sent 1) d .receiving
  | sendFailed (temp left : Bytes) (hleft : left ≠ []) :
    IoMove regex d (.sending temp left) (.sent (-1)) d .leaving
  | lost : IoMove regex d .receiving (.received none) d .leaving
  | nothing (hpc : d.pc = some true) : IoMove regex d .receiving (.received (some [])) d .loop
  | received (shot : Bytes) (hpc : d.pc = some true) (hshot : shot ≠ []) :
    IoMove regex d .receiving (.received (some shot))
      { d with log := { d.log with received := d.log.received ++ shot } } (.storing shot)
  | stored (shot : Bytes) (pc : IoPc) (hpc : pc = .loop ∨ pc = .notifying (.ready .void)) :
    IoMove regex d (.storing shot) .step
      { d with io := d.io.putIn shot, log := { d.log with stored := d.log.stored ++ shot } } pc
  | callback (pc pc' : CallPc) (a : CallAct) (d' : Dev)
      (hcall : callStep regex d pc a = some (d', pc')) :
    IoMove regex d (.notifying pc) (.callback a) d' (.notifying pc')
  | notified (ret : Ret) : IoMove regex d (.notifying (.ready ret)) .step d .loop
  | closed : IoMove regex d .closing .step d.shut .leaving
  | left (d' : Dev) (hd : d' = d ∨ d' = d.shut) : IoMove regex d .leaving .step d' .ending
  | ended : IoMove regex d .ending .step { d with ended := true } .ended

theorem ioStep_move {regex : Regex} {d d' : Dev} {pc pc' : IoPc} {a : IoAct}
    (h : ioStep regex d pc a = some (d', pc')) : IoMove regex d pc a d' pc' := by
  unfold ioStep at h
  split at h
  · next rv port =>
    split at h
    · next hrv => subst hrv; cases h; exact .opened port
    · next hrv => cases h; exact .refused rv port hrv
  · cases h; exact .enter
  · cases h
    by_cases halive : d.alive = true
    · rw [if_pos halive]; exact .again halive
    · rw [if_neg halive]; exact .stop (Bool.eq_false_iff.mpr halive)
  · cases h
    by_cases hout : d.io.out_ = []
    · rw [if_neg fun h => IoData.hasOutput_iff.mp h hout]; exact .silent hout
    · rw [if_pos (IoData.hasOutput_iff.mpr hout)]; exact .pending hout
  · rw [IoData.getOut_eq] at h
    cases h; exact .fetch
  · cases h
    split
    · next hpc => exact .sendTo _ hpc
    · next hpc => exact .unsendable _ hpc
  · cases h; exact .wrote _ _ _
  · split at h
    · next hrv => obtain ⟨rfl, rfl⟩ := hrv; cases h; exact .sentAll _
    · split at h
      · next hrv => obtain ⟨rfl, hleft⟩ := hrv; cases h; exact .timedOut _ _ hleft
      · split at h
        · next hrv => obtain ⟨rfl, hleft⟩ := hrv; cases h; exact .sendFailed _ _ hleft
        · cases h
  · cases h; exact .lost
  · split at h
    · next hpc =>
      split at h
      · next hshot => subst hshot; cases h; exact .nothing hpc.1
      · next hshot => cases h; exact .received _ hpc.1 hshot
    · cases h
  · cases h
    refine .stored _ _ ?_
    split
    · exact .inl rfl
    · exact .inr rfl
  · obtain ⟨⟨d₁, pc₁⟩, hcall, hr⟩ := Option.map_eq_some_iff.mp h
    cases hr; exact .callback _ _ _ _ hcall
  · cases h; exact .notified _
  · cases h; exact .closed
  · cases h
    refine .left _ ?_
    split
    · exact .inr rfl
    · exact .inl rfl
  · cases h; exact .ended
  · cases h

inductive ScriptMove (regex : Regex) (d : Dev) (io : IoPc) :
    ScriptPc → ScriptAct → Dev → ScriptPc → IoPc → Prop
  | construct (cred : CString) (htty : isTty cred = true) :
    ScriptMove regex d io (.constructing cred) .step
      { d with pc := some false, alive := true, cancall := false } .starting io
  | portless (cred : CString) (htty : isTty cred = false) :
    ScriptMove regex d io (.constructing cred) .step d (.running (.ready .void)) io
  | started : ScriptMove regex d io .starting (.started true) d .ctorWait .opening
  | unstarted : ScriptMove regex d io .starting (.started false) d .gone .gone
  | constructed (hcancall : d.cancall = true) :
    ScriptMove regex d io .ctorWait .step d (.running (.ready .void)) io
  | waiting (hcancall : d.cancall = false) :
    ScriptMove regex d io .ctorWait .step d .ctorWait io
  | call (pc pc' : CallPc) (a : CallAct) (d' : Dev)
      (hcall : callStep regex d pc a = some (d', pc')) :
    ScriptMove regex d io (.running pc) (.act a) d' (.running pc') io
  | destroy (ret : Ret) : ScriptMove regex d io (.running (.ready ret)) .destroy d .dtorClose io
  | nullClose (hpc : d.pc = none) : ScriptMove regex d io .dtorClose .step d .gone .gone
  | close (hpc : d.pc ≠ none) : ScriptMove regex d io .dtorClose .step d.shut .dtorStop io
  | stop : ScriptMove regex d io .dtorStop .step { d with alive := false } .dtorWait io
  | destroyed (hended : d.ended = true) :
    ScriptMove regex d io .dtorWait .step { d with pc := none } .destroyed io
  | unended (hended : d.ended = false) : ScriptMove regex d io .dtorWait .step d .dtorWait io

theorem scriptStep_move {regex : Regex} {d d' : Dev} {io io' : IoPc} {pc pc' : ScriptPc}
    {a : ScriptAct} (h : scriptStep regex d io pc a = some (d', pc', io')) :
    ScriptMove regex d io pc a d' pc' io' := by
  unfold scriptStep at h
  split at h
  · split at h
    · next htty => cases h; exact .construct _ htty
    · next htty => cases h; exact .portless _ (Bool.eq_false_iff.mpr htty)
  · next ok => cases ok <;> cases h <;> constructor
  · cases h
    by_cases hcancall : d.cancall = true
    · rw [if_pos hcancall]; exact .constructed hcancall
    · rw [if_neg hcancall]; exact .waiting (Bool.eq_false_iff.mpr hcancall)
  · obtain ⟨⟨d₁, pc₁⟩, hcall, hr⟩ := Option.map_eq_some_iff.mp h
    cases hr; exact .call _ _ _ _ hcall
  · cases h; exact .destroy _
  · split at h
    · next hpc => cases h; exact .nullClose hpc
    · next hpc => cases h; exact .close hpc
  · cases h; exact .stop
  · split at h
    · next hended => cases h; exact .destroyed hended
    · next hended => cases h; exact .unended (Bool.eq_false_iff.mpr hended)
  · cases h

@[simp] theorem settle_dev (s : Sys) : s.settle.dev = s.dev := by
  unfold Sys.settle
  split <;> rfl

/-- Either nothing was aborted or the process is gone. -/
theorem settle_cases (s : Sys) :
    s.settle = s ∨ (s.settle.script = .gone ∧ s.settle.io = .gone) := by
  unfold Sys.settle
  split
  · exact .inr ⟨rfl, rfl⟩
  · exact .inr ⟨rfl, rfl⟩
  · exact .inl rfl

theorem settle_eq {s : Sys} (hsc : s.script ≠ .running .aborted)
    (hio : s.io ≠ .notifying .aborted) : s.settle = s := by
  unfold Sys.settle
  split
  · exact absurd ‹s.script = .running .aborted› hsc
  · exact absurd ‹s.io = .notifying .aborted› hio
  · rfl

theorem settle_io_ne (s : Sys) : s.settle.io ≠ .notifying .aborted := by
  unfold Sys.settle
  split
  · nofun
  · nofun
  · next hio => exact hio

/-- No state that is reached is inside an aborted callback. -/
theorem step_io_ne {regex : Regex} {s t : Sys} {a : Act} (h : step regex s a = some t) :
    t.io ≠ .notifying .aborted := by
  cases a with
  | io b =>
    obtain ⟨r, -, rfl⟩ := Option.map_eq_some_iff.mp h
    exact settle_io_ne _
  | script b =>
    obtain ⟨r, -, rfl⟩ := Option.map_eq_some_iff.mp h
    exact settle_io_ne _

/-- **The step rule.** What holds of the threads after each move of one of them,
and after the process has gone, holds after each step. -/
theorem step_induct {regex : Regex} {Q : Sys → Prop} {s t : Sys} {a : Act}
    (hgone : ∀ u, Q u → Q { u with script := .gone, io := .gone })
    (hio : ∀ b d pc, a = .io b → IoMove regex s.dev s.io b d pc → Q ⟨d, s.script, pc⟩)
    (hscript : ∀ b d pc io, a = .script b → ScriptMove regex s.dev s.io s.script b d pc io →
      Q ⟨d, pc, io⟩)
    (h : step regex s a = some t) : Q t := by
  have hsettle : ∀ u, Q u → Q u.settle := by
    intro u hu
    rcases settle_cases u with heq | ⟨hsc, hi⟩
    · rw [heq]; exact hu
    · have hu' := hgone u hu
      have hext : u.settle = { u with script := .gone, io := .gone } := by
        rw [← settle_dev u, ← hsc, ← hi]
      rw [hext]; exact hu'
  cases a with
  | io b =>
    obtain ⟨⟨d, pc⟩, hstep, rfl⟩ := Option.map_eq_some_iff.mp h
    exact hsettle _ (hio b d pc rfl (ioStep_move hstep))
  | script b =>
    obtain ⟨⟨d, pc, io⟩, hstep, rfl⟩ := Option.map_eq_some_iff.mp h
    exact hsettle _ (hscript b d pc io rfl (scriptStep_move hstep))

/-! ## Before the thread is started -/

/-- The constructor has not reached its wait loop. -/
def ScriptPc.early : ScriptPc → Bool
  | .constructing _ | .starting => true
  | _ => false

/-- No IO thread runs before `start_thread`. -/
def Unstarted (s : Sys) : Prop := s.script.early = true → s.io = .absent

theorem unstarted_of_late {s : Sys} (h : s.script.early = false) : Unstarted s := by
  intro hearly
  rw [h] at hearly; cases hearly

/-- A move of the IO thread is a move of a thread that runs, and it runs on. -/
theorem IoMove.ran {regex : Regex} {d d' : Dev} {pc pc' : IoPc} {a : IoAct}
    (h : IoMove regex d pc a d' pc') : pc ≠ .absent ∧ pc' ≠ .absent := by
  cases h with
  | stored shot pc hpc => rcases hpc with rfl | rfl <;> exact ⟨nofun, nofun⟩
  | _ => exact ⟨nofun, nofun⟩

theorem step_unstarted {regex : Regex} {s t : Sys} {a : Act} (h : Unstarted s)
    (hstep : step regex s a = some t) : Unstarted t := by
  refine step_induct (Q := Unstarted) ?_ ?_ ?_ hstep
  · exact fun _ _ => nofun
  · intro b d pc _ hmove hearly
    have habsent := h hearly
    rw [habsent] at hmove
    cases hmove
  · intro b d pc io _ hmove
    obtain ⟨dev, sc, io₀⟩ := s
    cases hmove with
    | construct cred htty => exact fun _ => h rfl
    | _ => nofun

end Autocom.Machine
