import Autocom.Lib.Handles
import Autocom.Lib.Lts
import Autocom.TermSettings

/-! # The handle of a `SerialPort` on Windows

`_port` is a `HANDLE` here. The constructor leaves it as the memory was, 0 stands for
"closed", and `CreateFileA` is tested against 0 where it fails with
`INVALID_HANDLE_VALUE`; the calls that follow fail on that handle. Neither 0 nor
`INVALID_HANDLE_VALUE` is a handle of anything, so to close them closes nothing. -/
namespace Autocom.WinPort
open Autocom Autocom.Lib.Handles Autocom.Lib.Lts
open Autocom.TermSettings (mode_str baudText)

/-! ## `SerialPort` -/

/-- Handles compare as unsigned numbers. -/
abbrev Handle := BitVec 64

def INVALID_HANDLE_VALUE : Handle := -1

inductive Syscall
  | createFile (comname : Bytes) (h : Handle)
  | closeHandle (h : Handle)
  deriving DecidableEq

/-- What the calls that `OpenComport` makes answer. -/
structure OpenOutcome where
  createFile : Handle
  buildCommDCB : Bool
  setCommState : Bool
  setCommTimeouts : Bool
  deriving DecidableEq

/-- `CreateFileA` fails with `INVALID_HANDLE_VALUE`, and then nothing can be set. -/
structure OpenOutcome.Documented (os : OpenOutcome) : Prop where
  nonzero : os.createFile ≠ 0
  invalid : os.createFile = INVALID_HANDLE_VALUE → os.setCommState = false

structure Port where
  port : Handle
  calls : List Syscall
  deriving DecidableEq

def isOpen (port : Handle) : Bool := decide (port > 0)

namespace Port

/-- `CloseHandle(_port); _port=0;`. -/
def closeComport (p : Port) : Port := ⟨0, p.calls ++ [.closeHandle p.port]⟩

/-- `char comname[128]`. -/
def COMNAME : Nat := 128

/-- The backslashes and the dot in front of a device name. -/
def DEVICES : Bytes := [0x5c, 0x5c, 0x2e, 0x5c]

/-- `none`: the name does not fit `comname`, or `mode` is null where `strlen` reads it. -/
def openComport (p : Port) (comnamep : Bytes) (baudrate : Int) (mode : Option Bytes)
    (os : OpenOutcome) : Option (Port × Int) :=
  let comname := DEVICES ++ comnamep
  if COMNAME ≤ comname.length then none
  else match mode with
    | none => if (baudText.lookup baudrate).isNone then some (p, 1) else none
    | some mode =>
      if (mode_str baudrate mode).isNone then some (p, 1)
      else
        let p : Port := ⟨os.createFile, p.calls ++ [.createFile comname os.createFile]⟩
        if p.port = 0 then some (p, 1)
        else if ! os.buildCommDCB then some (p.closeComport, 1)
        else if ! os.setCommState then some (p.closeComport, 1)
        else if ! os.setCommTimeouts then some (p.closeComport, 1)
        else some (p, 0)

end Port

/-! ## `SerialComm` -/

structure Comm where
  credentials : Bytes
  device : Port
  deriving DecidableEq

namespace Comm

def init (garbage : Handle) (cred : CString) : Option Comm :=
  if cred.bytes.length < SerialComm.CREDENTIALS then some ⟨cred.bytes, ⟨garbage, []⟩⟩ else none

def open_ (c : Comm) (os : OpenOutcome) : Option (Comm × Int) := do
  let (dev, speed, mode) ← SerialComm.fields c.credentials
  let (device, rv) ← c.device.openComport dev (atoi speed) mode os
  return (⟨strtokCut c.credentials, device⟩, rv)

def close (c : Comm) : Comm :=
  let device := if c.device.port ≠ 0 then c.device.closeComport else c.device
  { c with device := { device with port := 0 } }

/-- `~SerialComm`, then the destructor of its member `_device`. -/
def destroy (c : Comm) : Comm :=
  let c := c.close
  { c with device := c.device.closeComport }

end Comm

/-! ## From construction to destruction -/

inductive Op
  | open_ (os : OpenOutcome)
  | close
  | destroy
  deriving DecidableEq

/-- `opens` is what each `open` returned, and the `_port` it left. -/
structure Life where
  comm : Comm
  destroyed : Bool
  opens : List (Int × Handle)
  deriving DecidableEq

def Life.init (garbage : Handle) (cred : CString) : Option Life :=
  (Comm.init garbage cred).map fun comm => ⟨comm, false, []⟩

/-- `none`: the object is gone, or the process is. -/
def step (l : Life) (op : Op) : Option Life :=
  if l.destroyed then none
  else match op with
    | .open_ os => (l.comm.open_ os).map fun r =>
        ⟨r.1, false, l.opens ++ [(r.2, r.1.device.port)]⟩
    | .close => some { l with comm := l.comm.close }
    | .destroy => some { l with comm := l.comm.destroy, destroyed := true }

/-! ## Keeping the handles -/

/-- The handle is one of the process's. -/
def isReal (h : Handle) : Bool := decide (h ≠ 0 ∧ h ≠ INVALID_HANDLE_VALUE)

def Syscall.event : Syscall → Option (Event Handle)
  | .createFile _ h => if isReal h then some (.acquire h) else none
  | .closeHandle h => if isReal h then some (.release h) else none

def events (calls : List Syscall) : List (Event Handle) := calls.filterMap Syscall.event

/-- Every handle that was closed was the port's own, an `open` that returned 0 left
it with one and an `open` that failed left it closed, and nothing is open at the end. -/
structure Kept (l : Life) : Prop where
  owned : Owned [] (events l.comm.device.calls)
  opened : ∀ r ∈ l.opens, r.1 = 0 → isReal r.2 = true
  failed : ∀ r ∈ l.opens, r.1 ≠ 0 → isOpen r.2 = false
  released : held [] (events l.comm.device.calls) = []

theorem events_append (a b : List Syscall) : events (a ++ b) = events a ++ events b :=
  List.filterMap_append

theorem held_append (own : List Handle) (es fs : List (Event Handle)) :
    held own (es ++ fs) = held (held own es) fs := by
  induction es generalizing own with
  | nil => rfl
  | cons e es ih => cases e <;> exact ih _

/-- `OpenComport` goes on to `CreateFileA` with the fields of the credential. -/
def acceptedSettings (credentials : Bytes) : Bool :=
  (SerialComm.fields credentials).any fun f =>
    f.2.2.any fun mode => (mode_str (atoi f.2.1) mode).isSome

/-! ## One `open` -/

/-- What an `open` leaves in the device, and what it returns. -/
inductive Opened (accepted : Bool) (p : Port) (os : OpenOutcome) : Port → Int → Prop
  | rejected (haccepted : accepted = false) : Opened accepted p os p 1
  | reset (haccepted : accepted = true) (comname : Bytes) :
    Opened accepted p os
      ⟨0, p.calls ++ [.createFile comname os.createFile] ++ [.closeHandle os.createFile]⟩ 1
  | opened (haccepted : accepted = true) (comname : Bytes)
    (hreal : isReal os.createFile = true) :
    Opened accepted p os ⟨os.createFile, p.calls ++ [.createFile comname os.createFile]⟩ 0

/-- A handle that the settings were made on is real. -/
theorem OpenOutcome.Documented.real {os : OpenOutcome} (h : os.Documented)
    (hset : os.setCommState = true) : isReal os.createFile = true := by
  refine decide_eq_true ⟨h.nonzero, fun hinvalid => ?_⟩
  rw [h.invalid hinvalid] at hset
  cases hset

theorem openComport_opened {p p' : Port} {comnamep : Bytes} {baudrate rv : Int}
    {mode : Option Bytes} {os : OpenOutcome} (hos : os.Documented)
    (h : p.openComport comnamep baudrate mode os = some (p', rv)) :
    Opened (mode.any fun m => (mode_str baudrate m).isSome) p os p' rv := by
  unfold Port.openComport at h
  simp only at h
  split at h
  · cases h
  · split at h
    · split at h
      · cases h; exact .rejected rfl
      · cases h
    · next mode =>
      split at h
      · next hmode => cases h; exact .rejected (by simpa using hmode)
      · next hmode =>
        have haccepted : (mode_str baudrate mode).isSome = true := by
          rw [Option.isSome_iff_ne_none]
          exact fun hnone => hmode (by rw [hnone]; rfl)
        rw [if_neg hos.nonzero] at h
        split at h
        · cases h; exact .reset haccepted _
        · split at h
          · cases h; exact .reset haccepted _
          · next hset =>
            split at h
            · cases h; exact .reset haccepted _
            · cases h; exact .opened haccepted _ (hos.real (by simpa using hset))

theorem open_opened {c c' : Comm} {os : OpenOutcome} {rv : Int} (hos : os.Documented)
    (h : c.open_ os = some (c', rv)) :
    Opened (acceptedSettings c.credentials) c.device os c'.device rv ∧
      SerialComm.fields c.credentials ≠ none ∧ SerialComm.fields c'.credentials = none := by
  simp only [Comm.open_, Option.bind_eq_bind, Option.bind_eq_some_iff] at h
  obtain ⟨⟨dev, speed, mode⟩, hfields, ⟨device, rv'⟩, hcom, hpure⟩ := h
  cases hpure
  have haccepted : acceptedSettings c.credentials =
      mode.any fun m => (mode_str (atoi speed) m).isSome := by
    simp [acceptedSettings, hfields]
  refine ⟨?_, by rw [hfields]; exact Option.some_ne_none _, ?_⟩
  · rw [haccepted]
    exact openComport_opened hos hcom
  · simp only [SerialComm.fields, Option.bind_eq_bind, Option.bind_eq_some_iff] at hfields
    obtain ⟨⟨dev', rest⟩, hdev, -⟩ := hfields
    simp [SerialComm.fields, strtok_cut hdev, strtok_nil]

/-! ## A port that is closed or its own -/

/-- The port holds what it opened and no more, and one that is open is not opened again. -/
structure Inv (l : Life) : Prop where
  owned : Owned [] (events l.comm.device.calls)
  holds : held [] (events l.comm.device.calls) =
    if l.comm.device.port = 0 then [] else [l.comm.device.port]
  spent : l.comm.device.port ≠ 0 →
    isReal l.comm.device.port = true ∧ SerialComm.fields l.comm.credentials = none
  opened : ∀ r ∈ l.opens, r.1 = 0 → isReal r.2 = true
  failed : ∀ r ∈ l.opens, r.1 ≠ 0 → isOpen r.2 = false
  gone : l.destroyed = true → l.comm.device.port = 0

theorem ne_zero_of_real {h : Handle} (hreal : isReal h = true) : h ≠ 0 :=
  (of_decide_eq_true hreal).1

/-- A handle that is opened and closed, if it is one, leaves the rest as it was. -/
theorem reset_events {calls : List Syscall} (comname : Bytes) (h : Handle)
    (howned : Owned [] (events calls)) :
    Owned [] (events (calls ++ [.createFile comname h] ++ [.closeHandle h])) ∧
      held [] (events (calls ++ [.createFile comname h] ++ [.closeHandle h])) =
        held [] (events calls) := by
  have hpair : events ([.createFile comname h] ++ [.closeHandle h]) =
      if isReal h = true then [.acquire h, .release h] else [] := by
    by_cases hreal : isReal h = true <;> simp [events, Syscall.event, hreal]
  rw [List.append_assoc, events_append, hpair, owned_append, held_append]
  split
  · exact ⟨⟨howned, by simp [Owned]⟩, by simp [held]⟩
  · exact ⟨⟨howned, trivial⟩, rfl⟩

/-- An `open` of a port that holds nothing. -/
theorem opened_inv {credentials : Bytes} {accepted : Bool} {p p' : Port} {os : OpenOutcome}
    {rv : Int} {opens : List (Int × Handle)} (hopened : Opened accepted p os p' rv)
    (hclosed : accepted = false → p.port = 0) (howned : Owned [] (events p.calls))
    (hheld : held [] (events p.calls) = []) (hfields : SerialComm.fields credentials = none)
    (hzero : ∀ r ∈ opens, r.1 = 0 → isReal r.2 = true)
    (hfail : ∀ r ∈ opens, r.1 ≠ 0 → isOpen r.2 = false) :
    Inv ⟨⟨credentials, p'⟩, false, opens ++ [(rv, p'.port)]⟩ := by
  have hlast : ∀ {P : Int × Handle → Prop}, (∀ r ∈ opens, P r) → P (rv, p'.port) →
      ∀ r ∈ opens ++ [(rv, p'.port)], P r := by
    intro P hopens hnew r hr
    rcases List.mem_append.mp hr with hr | hr
    · exact hopens r hr
    · rw [List.mem_singleton.mp hr]; exact hnew
  cases hopened with
  | rejected haccepted =>
    have hport := hclosed haccepted
    refine ⟨howned, by simp [hheld, hport], fun hne => absurd hport hne, hlast hzero nofun,
      hlast hfail fun _ => by rw [hport]; rfl, nofun⟩
  | reset haccepted comname =>
    obtain ⟨howned', hheld'⟩ := reset_events comname os.createFile howned
    exact ⟨howned', hheld'.trans hheld, fun hne => absurd rfl hne, hlast hzero nofun,
      hlast hfail fun _ => rfl, nofun⟩
  | opened haccepted comname hreal =>
    have hport := ne_zero_of_real hreal
    have hacquired : events (p.calls ++ [.createFile comname os.createFile]) =
        events p.calls ++ [.acquire os.createFile] := by
      rw [events_append]
      simp [events, Syscall.event, hreal]
    refine ⟨?_, ?_, fun _ => ⟨hreal, hfields⟩, hlast hzero fun _ => hreal,
      hlast hfail fun hne => absurd rfl hne, nofun⟩
    · change Owned [] (events (p.calls ++ [.createFile comname os.createFile]))
      rw [hacquired, owned_append]
      exact ⟨howned, trivial⟩
    · change held [] (events (p.calls ++ [.createFile comname os.createFile])) =
        if os.createFile = 0 then [] else [os.createFile]
      rw [hacquired, held_append, hheld, if_neg hport]
      rfl

/-- What `close` leaves: nothing open, and its own handle closed. -/
theorem close_kept {l : Life} (hl : Inv l) :
    l.comm.close.device.port = 0 ∧ Owned [] (events l.comm.close.device.calls) ∧
      held [] (events l.comm.close.device.calls) = [] := by
  by_cases hport : l.comm.device.port = 0
  · have hholds := hl.holds
    rw [if_pos hport] at hholds
    simp [Comm.close, hport, hl.owned, hholds]
  · have hholds := hl.holds
    rw [if_neg hport] at hholds
    have hdevice : l.comm.close.device = l.comm.device.closeComport := by
      unfold Comm.close
      rw [if_pos hport]
      rfl
    have hcalls : events l.comm.close.device.calls =
        events l.comm.device.calls ++ [.release l.comm.device.port] := by
      rw [hdevice, Port.closeComport, events_append]
      simp [events, Syscall.event, (hl.spent hport).1]
    refine ⟨rfl, ?_, ?_⟩
    · rw [hcalls, owned_append, hholds]
      exact ⟨hl.owned, by simp [Owned]⟩
    · rw [hcalls, held_append, hholds]
      simp [held]

/-- The last `CloseHandle` is of no handle. -/
theorem destroy_calls (c : Comm) :
    c.destroy.device.port = 0 ∧ events c.destroy.device.calls = events c.close.device.calls := by
  refine ⟨rfl, ?_⟩
  have hzero : events [.closeHandle 0] = [] := rfl
  change events (c.close.device.calls ++ [.closeHandle 0]) = _
  rw [events_append, hzero, List.append_nil]

/-- The answers to an `open` are documented ones. -/
def Answers : Op → Prop
  | .open_ os => os.Documented
  | _ => True

theorem step_inv {l m : Life} {op : Op} (hl : Inv l) (hop : Answers op)
    (hstep : step l op = some m) : Inv m := by
  simp only [step] at hstep
  split at hstep
  · cases hstep
  · cases op with
    | open_ os =>
      obtain ⟨⟨c', rv⟩, hopen, rfl⟩ := Option.map_eq_some_iff.mp hstep
      obtain ⟨hopened, hfields, hspent⟩ := open_opened hop hopen
      have hport : l.comm.device.port = 0 := by
        by_contra hne
        exact hfields (hl.spent hne).2
      have hholds := hl.holds
      rw [if_pos hport] at hholds
      exact opened_inv hopened (fun _ => hport) hl.owned hholds hspent hl.opened hl.failed
    | close =>
      cases hstep
      obtain ⟨hport, howned, hheld⟩ := close_kept hl
      exact ⟨howned, by simp [hport, hheld], fun hne => absurd hport hne, hl.opened, hl.failed,
        fun _ => hport⟩
    | destroy =>
      cases hstep
      obtain ⟨-, howned, hheld⟩ := close_kept hl
      obtain ⟨hport, hcalls⟩ := destroy_calls l.comm
      exact ⟨hcalls ▸ howned, by simp [hport, hcalls, hheld], fun hne => absurd hport hne,
        hl.opened, hl.failed, fun _ => hport⟩

theorem Inv.kept {l : Life} (h : Inv l) (hl : l.destroyed = true) : Kept l := by
  have hholds := h.holds
  rw [if_pos (h.gone hl)] at hholds
  exact ⟨h.owned, h.opened, h.failed, hholds⟩

/-! ## What a step does not take back -/

theorem Opened.calls_initial {accepted : Bool} {p p' : Port} {os : OpenOutcome} {rv : Int}
    (h : Opened accepted p os p' rv) : p.calls <+: p'.calls := by
  cases h with
  | rejected haccepted => exact List.prefix_rfl
  | reset haccepted comname =>
    exact (List.prefix_append _ _).trans (List.prefix_append _ _)
  | opened haccepted comname hreal => exact List.prefix_append _ _

theorem close_initial (c : Comm) : c.device.calls <+: c.close.device.calls := by
  unfold Comm.close
  split
  · exact List.prefix_append _ _
  · exact List.prefix_rfl

/-- The calls and the results of `open` only grow. -/
theorem step_grows {l m : Life} {op : Op} (hop : Answers op) (hstep : step l op = some m) :
    l.comm.device.calls <+: m.comm.device.calls ∧ l.opens <+: m.opens := by
  simp only [step] at hstep
  split at hstep
  · cases hstep
  · cases op with
    | open_ os =>
      obtain ⟨⟨c', rv⟩, hopen, rfl⟩ := Option.map_eq_some_iff.mp hstep
      exact ⟨(open_opened hop hopen).1.calls_initial, List.prefix_append _ _⟩
    | close => cases hstep; exact ⟨close_initial l.comm, List.prefix_rfl⟩
    | destroy =>
      cases hstep
      exact ⟨(close_initial l.comm).trans (List.prefix_append _ _), List.prefix_rfl⟩

theorem run_grows {l t : Life} {ops : List Op} (hops : ∀ op ∈ ops, Answers op)
    (h : run step l ops = some t) :
    l.comm.device.calls <+: t.comm.device.calls ∧ l.opens <+: t.opens :=
  run_keeps (I := fun u => l.comm.device.calls <+: u.comm.device.calls ∧ l.opens <+: u.opens)
    (fun _ _ _ hu hop hstep =>
      have hgrows := step_grows hop hstep
      ⟨hu.1.trans hgrows.1, hu.2.trans hgrows.2⟩)
    ⟨List.prefix_rfl, List.prefix_rfl⟩ (meets_of_forall (C := Answers) hops l) h

theorem run_inv {l t : Life} {ops : List Op} (hl : Inv l) (hops : ∀ op ∈ ops, Answers op)
    (h : run step l ops = some t) : Inv t :=
  run_keeps (fun _ _ _ => step_inv) hl (meets_of_forall (C := Answers) hops l) h

/-- Who has closed a handle that was not his cannot undo it. -/
theorem not_owned_of_initial {calls calls' : List Syscall} (h : calls <+: calls')
    (hnot : ¬ Owned [] (events calls)) : ¬ Owned [] (events calls') := by
  obtain ⟨rest, rfl⟩ := h
  rw [events_append, owned_append]
  exact fun howned => hnot howned.1

/-! ## When the handles are kept -/

/-- The first thing done to the object meets what the memory held: `open` with settings
that are refused leaves it, `close` and the destructor close it. -/
def Starts (garbage : Handle) (credentials : Bytes) : List Op → Prop
  | .open_ _ :: _ => garbage = 0 ∨ acceptedSettings credentials = true
  | _ => isReal garbage = false

theorem init_eq {garbage : Handle} {cred : CString} {l : Life}
    (h : Life.init garbage cred = some l) : l = ⟨⟨cred.bytes, ⟨garbage, []⟩⟩, false, []⟩ := by
  obtain ⟨comm, hinit, rfl⟩ := Option.map_eq_some_iff.mp h
  unfold Comm.init at hinit
  split at hinit
  · rw [← Option.some.inj hinit]
  · cases hinit

/-- A `close` of what the memory held. -/
theorem close_garbage (credentials : Bytes) (garbage : Handle) :
    (Owned [] (events (Comm.close ⟨credentials, ⟨garbage, []⟩⟩).device.calls) ↔
        isReal garbage = false) ∧
      (isReal garbage = false →
        events (Comm.close ⟨credentials, ⟨garbage, []⟩⟩).device.calls = []) := by
  by_cases hzero : garbage = 0
  · subst hzero
    exact ⟨iff_of_true trivial rfl, fun _ => rfl⟩
  · have hdevice : (Comm.close ⟨credentials, ⟨garbage, []⟩⟩).device =
        (Port.mk garbage []).closeComport := by
      unfold Comm.close
      rw [if_pos hzero]
      rfl
    have hcalls : events (Port.mk garbage []).closeComport.calls =
        if isReal garbage = true then [.release garbage] else [] := by
      by_cases hreal : isReal garbage = true <;>
        simp [Port.closeComport, events, Syscall.event, hreal]
    rw [hdevice, hcalls]
    cases isReal garbage with
    | true => exact ⟨iff_of_false (not_owned_nil _ _) nofun, nofun⟩
    | false => exact ⟨iff_of_true trivial rfl, fun _ => rfl⟩

/-- An open that starts a life, and the end of one that nothing was opened in. -/
theorem first_inv {garbage : Handle} {credentials : Bytes} {op : Op} {rest : List Op} {m : Life}
    (hop : Answers op) (hstarts : Starts garbage credentials (op :: rest))
    (hstep : step ⟨⟨credentials, ⟨garbage, []⟩⟩, false, []⟩ op = some m) : Inv m := by
  simp only [step, Bool.false_eq_true, if_false] at hstep
  cases op with
  | open_ os =>
    obtain ⟨⟨c', rv⟩, hopen, rfl⟩ := Option.map_eq_some_iff.mp hstep
    obtain ⟨hopened, -, hspent⟩ := open_opened hop hopen
    refine opened_inv hopened (fun haccepted => ?_) trivial rfl hspent nofun nofun
    rcases hstarts with hzero | haccepts
    · exact hzero
    · rw [haccepted] at haccepts; cases haccepts
  | close =>
    cases hstep
    have hnone := (close_garbage credentials garbage).2 hstarts
    refine ⟨?_, ?_, fun hne => absurd rfl hne, nofun, nofun, fun _ => rfl⟩
    · change Owned [] (events (Comm.close ⟨credentials, ⟨garbage, []⟩⟩).device.calls)
      rw [hnone]
      trivial
    · change held [] (events (Comm.close ⟨credentials, ⟨garbage, []⟩⟩).device.calls) = _
      rw [hnone]
      rfl
  | destroy =>
    cases hstep
    have hnone := (close_garbage credentials garbage).2 hstarts
    have hcalls := (destroy_calls ⟨credentials, ⟨garbage, []⟩⟩).2
    refine ⟨?_, ?_, fun hne => absurd rfl hne, nofun, nofun, fun _ => rfl⟩
    · change Owned [] (events (Comm.destroy ⟨credentials, ⟨garbage, []⟩⟩).device.calls)
      rw [hcalls, hnone]
      trivial
    · change held [] (events (Comm.destroy ⟨credentials, ⟨garbage, []⟩⟩).device.calls) = _
      rw [hcalls, hnone]
      rfl

/-- A first step of the other kind leaves something that no later step mends. -/
theorem first_not_kept {garbage : Handle} {credentials : Bytes} {op : Op} {rest : List Op}
    {m t : Life} (hop : Answers op) (hstarts : ¬ Starts garbage credentials (op :: rest))
    (hstep : step ⟨⟨credentials, ⟨garbage, []⟩⟩, false, []⟩ op = some m)
    (hcalls : m.comm.device.calls <+: t.comm.device.calls) (hopens : m.opens <+: t.opens) :
    ¬ Kept t := by
  simp only [step, Bool.false_eq_true, if_false] at hstep
  cases op with
  | open_ os =>
    obtain ⟨⟨c', rv⟩, hopen, rfl⟩ := Option.map_eq_some_iff.mp hstep
    obtain ⟨hne, hrefused⟩ := not_or.mp hstarts
    intro hkept
    have hmem : (rv, c'.device.port) ∈ t.opens := hopens.subset (by simp)
    cases hc : c'.device with
    | mk port calls =>
      have hopened := (open_opened hop hopen).1
      rw [hc] at hopened hmem
      cases hopened with
      | rejected haccepted =>
        have hclosed := hkept.failed _ hmem (by decide : (1 : Int) ≠ 0)
        simp only [isOpen, decide_eq_false_iff_not] at hclosed
        have hle := BitVec.not_lt.mp hclosed
        exact hne (BitVec.le_zero_iff.mp hle)
      | reset haccepted comname => exact hrefused haccepted
      | opened haccepted comname hreal => exact hrefused haccepted
  | close =>
    cases hstep
    have hnot := mt (close_garbage credentials garbage).1.mp hstarts
    exact fun hkept => not_owned_of_initial hcalls hnot hkept.owned
  | destroy =>
    cases hstep
    have hnot := mt (close_garbage credentials garbage).1.mp hstarts
    rw [← (destroy_calls ⟨credentials, ⟨garbage, []⟩⟩).2] at hnot
    exact fun hkept => not_owned_of_initial hcalls hnot hkept.owned

/-- **On Windows the handles are kept in exactly the lives that start well**: with an
`open` whose settings are accepted, whatever the memory held and whichever of its calls
fail, or with memory that held no handle. -/
theorem handles_kept_iff (garbage : Handle) (cred : CString) (l₀ : Life)
    (h₀ : Life.init garbage cred = some l₀) (ops : List Op) (l : Life)
    (hops : ∀ op ∈ ops, Answers op) (h : run step l₀ ops = some l) (hl : l.destroyed = true) :
    Kept l ↔ Starts garbage cred.bytes ops := by
  obtain rfl := init_eq h₀
  cases ops with
  | nil => cases h; cases hl
  | cons op rest =>
    obtain ⟨m, hstep, hrest⟩ := run_cons.mp h
    have hop := hops op (by simp)
    have hothers : ∀ o ∈ rest, Answers o := fun o ho => hops o (by simp [ho])
    constructor
    · intro hkept
      by_contra hstarts
      obtain ⟨hcalls, hopens⟩ := run_grows hothers hrest
      exact first_not_kept hop hstarts hstep hcalls hopens hkept
    · exact fun hstarts => (run_inv (first_inv hop hstarts hstep) hothers hrest).kept hl

/-! ## The buffer for the name -/

/-- A token and what follows its comma fit in the string. -/
theorem strtok_length {s tok rest : Bytes} (h : strtok s = some (tok, rest)) :
    tok.length + rest.length ≤ s.length ∧
      (rest ≠ [] → tok.length + 1 + rest.length ≤ s.length) := by
  unfold strtok at h
  simp only at h
  split at h
  · cases h
  · obtain ⟨rfl, rfl⟩ := Prod.mk.inj (Option.some.inj h)
    have hlead := (List.dropWhile_suffix (l := s) (· == COMMA)).length_le
    have hsplit := congrArg List.length
      (List.takeWhile_append_dropWhile (p := (· != COMMA)) (l := s.dropWhile (· == COMMA)))
    simp only [List.length_append] at hsplit
    simp only [List.length_drop]
    refine ⟨by omega, fun hrest => ?_⟩
    have hpos := List.length_pos_of_ne_nil hrest
    rw [List.length_drop] at hpos
    omega

theorem strtok_rest_ne_nil {s : Bytes} {r : Bytes × Bytes} (h : strtok s = some r) : s ≠ [] := by
  rintro rfl
  cases h

theorem mode_length {mode : Bytes} (h : SerialPort.modeAccepted mode = true) :
    mode.length = 3 := by
  unfold SerialPort.modeAccepted at h
  split at h
  · rfl
  · cases h

/-- **`comname` is long enough for every credential whose settings are accepted**: an
`open` of it returns. -/
theorem open_defined (c : Comm) (os : OpenOutcome)
    (hlength : c.credentials.length < SerialComm.CREDENTIALS)
    (haccepted : acceptedSettings c.credentials = true) : (c.open_ os).isSome = true := by
  simp only [acceptedSettings, Option.any_eq_true] at haccepted
  obtain ⟨⟨dev, speed, mode⟩, hfields, mode, rfl, hmode⟩ := haccepted
  have hthree : mode.length = 3 := by
    rw [TermSettings.mode_str_isSome, Bool.and_eq_true] at hmode
    exact mode_length hmode.2
  -- two commas and a mode of three characters leave at most 122 for the name
  have hdev : dev.length + 5 ≤ c.credentials.length := by
    have hparts := hfields
    simp only [SerialComm.fields, Option.bind_eq_bind, Option.bind_eq_some_iff] at hparts
    obtain ⟨⟨dev', rest⟩, hdev, ⟨speed', rest'⟩, hspeed, hpure⟩ := hparts
    obtain ⟨rfl, rfl, hthird⟩ : dev' = dev ∧ speed' = speed ∧
        (strtok rest').map Prod.fst = some mode := by simpa using hpure
    obtain ⟨⟨mode', rest''⟩, hlast, rfl⟩ := Option.map_eq_some_iff.mp hthird
    have h1 := (strtok_length hdev).2 (strtok_rest_ne_nil hspeed)
    have h2 := (strtok_length hspeed).2 (strtok_rest_ne_nil hlast)
    have h3 := (strtok_length hlast).1
    simp only at h1 h2 h3 hthree
    omega
  have hfits : ¬ Port.COMNAME ≤ (Port.DEVICES ++ dev).length := by
    rw [List.length_append]
    simp only [Port.COMNAME, Port.DEVICES, SerialComm.CREDENTIALS, List.length_cons,
      List.length_nil] at hlength ⊢
    omega
  have hsome : ((mode_str (atoi speed) mode).isNone = true) = False := by
    rw [Option.isNone_iff_eq_none, eq_iff_iff, iff_false]
    exact Option.isSome_iff_ne_none.mp hmode
  simp only [Comm.open_, hfields, Option.bind_eq_bind, Option.bind_some, Port.openComport,
    if_neg hfits, hsome, if_false]
  split
  · rfl
  · split
    · rfl
    · split
      · rfl
      · split <;> rfl

/-! ## The usual life -/

/-- `COM,9600,8N1`. -/
def com : CString :=
  ⟨[0x43, 0x4f, 0x4d, 0x2c, 0x39, 0x36, 0x30, 0x30, 0x2c, 0x38, 0x4e, 0x31], by decide⟩

/-- The port is taken: `CreateFileA` fails, and so does `SetCommState`. -/
def taken : OpenOutcome := ⟨INVALID_HANDLE_VALUE, true, false, true⟩

/-- `,9600,8N1` behind the longest name that `_credentials` has room for. -/
def longest : Comm :=
  ⟨List.replicate 118 0x41 ++ [0x2c, 0x39, 0x36, 0x30, 0x30, 0x2c, 0x38, 0x4e, 0x31], ⟨0, []⟩⟩

theorem open_defined_longest : (longest.open_ taken).isSome = true :=
  open_defined longest taken (by simp [longest, SerialComm.CREDENTIALS]) (by decide +kernel)

theorem taken_documented : taken.Documented := ⟨by decide, fun _ => rfl⟩

/-- Memory that holds the number of a handle, and a port that is taken. -/
theorem handles_kept_iff_taken :
    ∃ l₀ l, Life.init 5 com = some l₀ ∧ run step l₀ [.open_ taken, .close, .destroy] = some l ∧
      (Kept l ↔ Starts 5 com.bytes [.open_ taken, .close, .destroy]) :=
  ⟨_, _, rfl, rfl, handles_kept_iff 5 com _ rfl _ _ (by
    intro op hop
    simp only [List.mem_cons, List.not_mem_nil, or_false] at hop
    rcases hop with rfl | rfl | rfl
    · exact taken_documented
    · trivial
    · trivial) rfl rfl⟩

end Autocom.WinPort
