import Autocom.Lib.Handles
import Autocom.Lib.Lts
import Autocom.SerialPort

/-! # Who owns the descriptor of a `SerialPort`

`_port` is not initialised, two error exits of `OpenComport` close it and leave
the number in it, and 0 stands for "closed" as well as for a descriptor that the
destructors close. A second `open` passes a null pointer to `atoi`, so a
`SerialComm` that reaches its destructor has been opened once at most, and its
calls can be listed. -/
namespace Autocom.Descriptors
open Autocom Autocom.Lib.Handles Autocom.Lib.Lts SerialComm

def Syscall.event : Syscall → Option (Event Int)
  | .open_ _ rv => if rv = -1 then none else some (.acquire rv)
  | .close fd => some (.release fd)

def events (calls : List Syscall) : List (Event Int) := calls.filterMap Syscall.event

/-- The descriptors were the port's own when it closed them, an `open` that
failed left it closed, and nothing is open at the end. -/
structure Kept (l : Life) : Prop where
  owned : Owned [] (events l.comm.device.calls)
  failed : ∀ r ∈ l.opens, r.1 ≠ 0 → r.2 = false
  released : held [] (events l.comm.device.calls) = []

/-! ## One `open` -/

/-- `OpenComport` goes on to call `open()`. -/
def accepts (baudrate : Int) (mode : Option Bytes) : Bool :=
  decide (baudrate ∈ SerialPort.baudrates) && mode.any SerialPort.modeAccepted

/-- The fields of the credential are ones that `OpenComport` accepts. -/
def acceptedSettings (credentials : Bytes) : Bool :=
  (fields credentials).any fun f => accepts (atoi f.2.1) f.2.2

/-- What an `open` leaves in the device, and what it returns. -/
inductive Opened (accepted : Bool) (p : SerialPort) (os : OpenOutcome) :
    SerialPort → Int → Prop
  | rejected (haccepted : accepted = false) : Opened accepted p os p 1
  | refused (comname : Bytes) (hopen : os.open_ = none) :
    Opened accepted p os ⟨-1, p.calls ++ [.open_ comname (-1)]⟩ (-1)
  | stale (comname : Bytes) (fd : Nat) (hfail : (os.flock && os.tcgetattr) = false) :
    Opened accepted p os ⟨fd, p.calls ++ [.open_ comname fd] ++ [.close fd]⟩ 1
  | reset (comname : Bytes) (fd : Nat) (hfail : os.tcsetattr = false) :
    Opened accepted p os ⟨0, p.calls ++ [.open_ comname fd] ++ [.close fd]⟩ 1
  | opened (comname : Bytes) (fd : Nat) (rv : Int) (haccepted : accepted = true)
    (hopen : os.open_ = some fd) (hok : (os.flock && os.tcgetattr && os.tcsetattr) = true) :
    Opened accepted p os ⟨fd, p.calls ++ [.open_ comname fd]⟩ rv

theorem openComport_opened {p p' : SerialPort} {comname : Bytes} {baudrate rv : Int}
    {mode : Option Bytes} {os : OpenOutcome}
    (h : p.openComport comname baudrate mode os = some (p', rv)) :
    Opened (accepts baudrate mode) p os p' rv := by
  unfold SerialPort.openComport at h
  split at h
  · next hbaud => cases h; exact .rejected (by simp [accepts, hbaud])
  · next hbaud =>
    split at h
    · cases h
    · next mode =>
      split at h
      · next hmode => cases h; exact .rejected (by simp_all [accepts])
      · next hmode =>
        have haccepted : accepts baudrate (some mode) = true := by simp_all [accepts]
        split at h
        · next hopen => cases h; exact .refused comname hopen
        · next fd hopen =>
          simp only at h
          split at h
          · next hflock => cases h; exact .stale comname fd (by simp_all)
          · split at h
            · next hget => cases h; exact .stale comname fd (by simp_all)
            · split at h
              · next hset => cases h; exact .reset comname fd (by simpa using hset)
              · have hok : (os.flock && os.tcgetattr && os.tcsetattr) = true := by simp_all
                split at h
                · cases h; exact .opened comname fd 1 haccepted hopen hok
                · split at h <;> cases h <;> exact .opened comname fd _ haccepted hopen hok

theorem open_opened {c c' : SerialComm} {os : OpenOutcome} {rv : Int}
    (h : c.open_ os = some (c', rv)) :
    Opened (acceptedSettings c.credentials) c.device os c'.device rv := by
  simp only [open_, Option.bind_eq_bind, Option.bind_eq_some_iff] at h
  obtain ⟨⟨dev, speed, mode⟩, hfields, ⟨device, rv'⟩, hcom, hpure⟩ := h
  cases hpure
  have haccepted : acceptedSettings c.credentials = accepts (atoi speed) mode := by
    simp [acceptedSettings, hfields]
  rw [haccepted]
  exact openComport_opened hcom

theorem Opened.extends_calls {accepted : Bool} {p p' : SerialPort} {os : OpenOutcome}
    {rv : Int} (h : Opened accepted p os p' rv) (s : Syscall) (rest : List Syscall)
    (hp : p.calls = s :: rest) : ∃ rest', p'.calls = s :: rest' := by
  cases h <;> simp [hp]

/-- A second `open` finds one field where three were. -/
theorem open_spent {c c' : SerialComm} {os : OpenOutcome} {rv : Int}
    (h : c.open_ os = some (c', rv)) : fields c'.credentials = none := by
  simp only [open_, Option.bind_eq_bind, Option.bind_eq_some_iff] at h
  obtain ⟨f, hfields, r, -, hpure⟩ := h
  cases hpure
  simp only [fields, Option.bind_eq_bind, Option.bind_eq_some_iff] at hfields
  obtain ⟨⟨dev, rest⟩, hdev, -⟩ := hfields
  simp [fields, strtok_cut hdev, strtok_nil]

theorem open_none {c : SerialComm} (h : fields c.credentials = none) (os : OpenOutcome) :
    c.open_ os = none := by
  simp [open_, h]

/-! ## A whole life -/

/-- What `~SerialComm` and `~SerialPort` close. -/
def destroyed (p : SerialPort) : List Syscall :=
  (if p.port ≠ 0 then [.close p.port] else []) ++ [.close 0]

theorem close_closed (c : SerialComm) :
    c.close.device.port = 0 ∧ c.close.credentials = c.credentials ∧
      c.close.device.calls ++ destroyed c.close.device =
        c.device.calls ++ destroyed c.device := by
  by_cases hport : c.device.port = 0
  · simp [close, destroyed, hport]
  · simp [close, destroyed, hport, SerialPort.closeComport, SerialPort.sysClose]

theorem destroy_calls (c : SerialComm) :
    c.destroy.device.calls = c.device.calls ++ destroyed c.device := by
  obtain ⟨hport, -, hcalls⟩ := close_closed c
  rw [← hcalls]
  simp [destroy, destroyed, hport, SerialPort.closeComport, SerialPort.sysClose]

/-- Nothing happens to an object that is gone. -/
theorem run_destroyed {l t : Life} {ops : List Op} (hl : l.destroyed = true)
    (h : run step l ops = some t) : t = l ∧ ops = [] := by
  cases ops with
  | nil => exact ⟨(Option.some.inj h).symm, rfl⟩
  | cons op ops =>
    obtain ⟨m, hstep, -⟩ := run_cons.mp h
    simp [step, hl] at hstep

theorem close_close (c : SerialComm) : c.close.close = c.close := by
  simp [close]

/-- After an `open` the object only closes. -/
theorem run_spent {l t : Life} {ops : List Op} (hl : l.destroyed = false)
    (ht : t.destroyed = true) (hspent : fields l.comm.credentials = none)
    (h : run step l ops = some t) :
    t.comm.device.calls = l.comm.device.calls ++ destroyed l.comm.device ∧
      t.opens = l.opens ∧ ∀ os, .open_ os ∉ ops := by
  induction ops generalizing l with
  | nil => cases h; rw [hl] at ht; cases ht
  | cons op ops ih =>
    obtain ⟨m, hstep, hrest⟩ := run_cons.mp h
    simp only [step, hl, Bool.false_eq_true, if_false] at hstep
    cases op with
    | open_ os =>
      simp [open_none hspent] at hstep
    | close =>
      cases hstep
      obtain ⟨-, hcred, hcalls⟩ := close_closed l.comm
      obtain ⟨ih_calls, ih_opens, ih_ops⟩ := ih rfl (hcred ▸ hspent) hrest
      refine ⟨ih_calls.trans hcalls, ih_opens, fun os hmem => ?_⟩
      exact ih_ops os (by simpa using hmem)
    | destroy =>
      cases hstep
      obtain ⟨rfl, rfl⟩ := run_destroyed rfl hrest
      exact ⟨destroy_calls l.comm, rfl, by simp⟩

/-- An object that reaches its end was opened never or once, at the start or
after a `close`, and ends with the calls its device has then. -/
theorem run_life {l t : Life} {ops : List Op} (hl : l.destroyed = false)
    (ht : t.destroyed = true) (h : run step l ops = some t) :
    (t.comm.device.calls = l.comm.device.calls ++ destroyed l.comm.device ∧
        t.opens = l.opens ∧ ∀ os, .open_ os ∉ ops) ∨
      ∃ c os c' rv, .open_ os ∈ ops ∧ (∀ os', .open_ os' ∈ ops → os' = os) ∧
        (c = l.comm ∧ ops.head? = some (.open_ os) ∨
          c = l.comm.close ∧ ops.head? = some .close) ∧
        c.open_ os = some (c', rv) ∧
        t.comm.device.calls = c'.device.calls ++ destroyed c'.device ∧
        t.opens = l.opens ++ [(rv, c'.device.isOpen)] := by
  induction ops generalizing l with
  | nil => cases h; rw [hl] at ht; cases ht
  | cons op ops ih =>
    obtain ⟨m, hstep, hrest⟩ := run_cons.mp h
    simp only [step, hl, Bool.false_eq_true, if_false] at hstep
    cases op with
    | open_ os =>
      obtain ⟨⟨c', rv⟩, hopen, rfl⟩ := Option.map_eq_some_iff.mp hstep
      obtain ⟨hcalls, hopens, hops⟩ := run_spent rfl ht (open_spent hopen) hrest
      refine .inr ⟨l.comm, os, c', rv, by simp, ?_, .inl ⟨rfl, rfl⟩, hopen, hcalls, hopens⟩
      intro os' hmem
      rcases List.mem_cons.mp hmem with heq | hmem
      · cases heq; rfl
      · exact absurd hmem (hops os')
    | close =>
      cases hstep
      rcases ih rfl hrest with ⟨hcalls, hopens, hops⟩ |
        ⟨c, os, c', rv, hmem, honly, hc, hopen, hcalls, hopens⟩
      · refine .inl ⟨hcalls.trans (close_closed l.comm).2.2, hopens, fun os hmem => ?_⟩
        exact hops os (by simpa using hmem)
      · refine .inr ⟨c, os, c', rv, by simp [hmem], ?_, .inr ⟨?_, rfl⟩, hopen, hcalls, hopens⟩
        · intro os' hmem'
          exact honly os' (by simpa using hmem')
        · rcases hc with ⟨hc, -⟩ | ⟨hc, -⟩
          · exact hc
          · exact hc.trans (close_close l.comm)
    | destroy =>
      cases hstep
      obtain ⟨rfl, rfl⟩ := run_destroyed rfl hrest
      exact .inl ⟨destroy_calls l.comm, rfl, by simp⟩

/-! ## When the descriptors are kept -/

/-- `open()` hands out descriptor 0 and the lock and the settings succeed. -/
def OpensZero (credentials : Bytes) (os : OpenOutcome) : Prop :=
  acceptedSettings credentials = true ∧ os.open_ = some 0 ∧
    (os.flock && os.tcgetattr && os.tcsetattr) = true

theorem events_append (a b : List Syscall) : events (a ++ b) = events a ++ events b :=
  List.filterMap_append

/-- Without a descriptor of its own, a port that goes away closes another's. -/
theorem not_owned_destroyed (p : SerialPort) : ¬ Owned [] (events (destroyed p)) := by
  unfold destroyed
  split <;> exact not_owned_nil _ _

/-- From a device that holds nothing and has closed nothing, one `open` and the
end of life keep the descriptors only if the descriptor was 0. -/
theorem opened_kept_iff {accepted : Bool} {p p' : SerialPort} {os : OpenOutcome} {rv : Int}
    (h : Opened accepted p os p' rv) (hp : p.calls = []) :
    (Owned [] (events (p'.calls ++ destroyed p')) ∧ (rv ≠ 0 → p'.isOpen = false) ∧
        held [] (events (p'.calls ++ destroyed p')) = []) ↔
      accepted = true ∧ os.open_ = some 0 ∧
        (os.flock && os.tcgetattr && os.tcsetattr) = true := by
  have hlone : ∀ (comname : Bytes) (fd : Nat), events [.open_ comname fd] = [.acquire ↑fd] := by
    intro comname fd
    have hfd : ¬ (fd : Int) = -1 := by omega
    simp [events, Syscall.event, hfd]
  -- a descriptor that was opened and closed is held no more
  have hreleased : ∀ (comname : Bytes) (fd : Nat) (q : SerialPort),
      ¬ Owned [] (events ([.open_ comname fd] ++ [.close fd] ++ destroyed q)) := by
    intro comname fd q
    rw [events_append, events_append, hlone, owned_append]
    rintro ⟨-, hrest⟩
    have hheld : held [] ([.acquire (fd : Int)] ++ events [.close (fd : Int)]) = [] := by
      simp [held, events, Syscall.event]
    rw [hheld] at hrest
    exact not_owned_destroyed q hrest
  cases h with
  | rejected haccepted =>
    rw [hp, List.nil_append]
    simp [haccepted, not_owned_destroyed]
  | refused comname hopen =>
    rw [hp, List.nil_append, events_append]
    have hnone : events [.open_ comname (-1)] = [] := rfl
    rw [hnone, List.nil_append]
    simp [hopen, not_owned_destroyed]
  | stale comname fd hfail =>
    rw [hp, List.nil_append]
    simp only [hreleased, false_and, false_iff]
    rintro ⟨-, -, hok⟩
    simp [hfail] at hok
  | reset comname fd hfail =>
    rw [hp, List.nil_append]
    simp only [hreleased, false_and, false_iff]
    rintro ⟨-, -, hok⟩
    simp [hfail] at hok
  | opened comname fd rv haccepted hopen hok =>
    rw [hp, List.nil_append, events_append, hlone]
    simp only [haccepted, hopen, hok, true_and, and_true, Option.some.injEq]
    by_cases hfd : fd = 0
    · subst hfd
      simp [destroyed, events, Syscall.event, Owned, held, SerialPort.isOpen]
    · have hclose : events (destroyed ⟨fd, [.open_ comname fd]⟩) =
          [.release (fd : Int), .release 0] := by
        simp [destroyed, events, Syscall.event, hfd]
      rw [hclose]
      simp [Owned, hfd]

theorem init_eq {garbage : Int} {cred : CString} {l : Life}
    (h : Life.init garbage cred = some l) : l = ⟨⟨cred.bytes, ⟨garbage, []⟩⟩, false, []⟩ := by
  obtain ⟨comm, hinit, rfl⟩ := Option.map_eq_some_iff.mp h
  unfold SerialComm.init at hinit
  split at hinit
  · rw [← Option.some.inj hinit]
  · cases hinit

/-- A life that ended with one `open`, in the terms of that `open`. -/
theorem kept_iff_owned {l : Life} {c : SerialComm} {rv : Int}
    (hcalls : l.comm.device.calls = c.device.calls ++ destroyed c.device)
    (hopens : l.opens = [(rv, c.device.isOpen)]) :
    Kept l ↔ Owned [] (events (c.device.calls ++ destroyed c.device)) ∧
      (rv ≠ 0 → c.device.isOpen = false) ∧
      held [] (events (c.device.calls ++ destroyed c.device)) = [] := by
  rw [← hcalls]
  refine ⟨fun hk => ⟨hk.owned, ?_, hk.released⟩, fun hk => ⟨hk.1, ?_, hk.2.2⟩⟩
  · exact hk.failed (rv, c.device.isOpen) (by simp [hopens])
  · intro r hr
    obtain rfl : r = (rv, c.device.isOpen) := by simpa [hopens] using hr
    exact hk.2.1

/-- A life that began by closing what the memory held. -/
theorem not_kept_of_garbage {l : Life} {fd : Int} {rest : List Syscall}
    (h : l.comm.device.calls = .close fd :: rest) : ¬ Kept l := by
  intro hk
  have howned := hk.owned
  rw [h] at howned
  exact not_owned_nil _ _ howned

/-- **The descriptors are kept in exactly the lives in which `open()` handed out
descriptor 0**, locked and configured, before `close` met what `_port` held at
the start. -/
theorem kept_iff (garbage : Int) (cred : CString) (l₀ : Life)
    (h₀ : Life.init garbage cred = some l₀) (ops : List Op) (l : Life)
    (h : run step l₀ ops = some l) (hl : l.destroyed = true) :
    Kept l ↔ ∃ os, .open_ os ∈ ops ∧ OpensZero cred.bytes os ∧
      (garbage = 0 ∨ ops.head? = some (.open_ os)) := by
  obtain rfl := init_eq h₀
  rcases run_life rfl hl h with ⟨hcalls, -, hops⟩ |
    ⟨c, os, c', rv, hmem, honly, hc, hopen, hcalls, hopens⟩
  · constructor
    · intro hkept
      have howned := hkept.owned
      rw [hcalls, List.nil_append] at howned
      exact absurd howned (not_owned_destroyed _)
    · intro ⟨os, hmem, _⟩
      exact absurd hmem (hops os)
  · have hcond : (∃ os, .open_ os ∈ ops ∧ OpensZero cred.bytes os ∧
        (garbage = 0 ∨ ops.head? = some (.open_ os))) ↔
        OpensZero cred.bytes os ∧ (garbage = 0 ∨ ops.head? = some (.open_ os)) := by
      constructor
      · intro ⟨os', hmem', hrest⟩
        rwa [honly os' hmem'] at hrest
      · exact fun hrest => ⟨os, hmem, hrest⟩
    have hcred : c.credentials = cred.bytes := by
      rcases hc with ⟨rfl, -⟩ | ⟨rfl, -⟩
      · rfl
      · exact (close_closed _).2.1
    have hopened := open_opened hopen
    rw [hcred] at hopened
    have hclean : c.device.calls = [] → (Kept l ↔ OpensZero cred.bytes os) :=
      fun hempty => (kept_iff_owned hcalls hopens).trans (opened_kept_iff hopened hempty)
    rw [hcond]
    rcases hc with ⟨rfl, hhead⟩ | ⟨rfl, hhead⟩
    · rw [hclean rfl]
      exact ⟨fun hz => ⟨hz, .inr hhead⟩, fun hz => hz.1⟩
    · by_cases hg : garbage = 0
      · subst hg
        rw [hclean rfl]
        exact ⟨fun hz => ⟨hz, .inl rfl⟩, fun hz => hz.1⟩
      · obtain ⟨rest, hrest⟩ := hopened.extends_calls (.close garbage) [] (by
          simp [close, hg, SerialPort.closeComport, SerialPort.sysClose])
        have hnot : ¬ Kept l := not_kept_of_garbage (by rw [hcalls, hrest, List.cons_append])
        refine iff_of_false hnot ?_
        rintro ⟨-, hz | hz⟩
        · exact hg hz
        · rw [hhead] at hz; cases hz

/-! ## The usual life -/

def com : CString := ⟨[0x43, 0x2c, 0x39, 0x36, 0x30, 0x30, 0x2c, 0x38, 0x4e, 0x31], by decide⟩

/-- Every call of the system succeeds. -/
def granted (fd : Nat) : OpenOutcome := ⟨some fd, true, true, true, true, true⟩

/-- `C,9600,8N1` is opened as descriptor 3 and destroyed: after 3 the destructor
of the member closes 0. -/
theorem stdin_closed :
    ∃ l₀ l, Life.init 0 com = some l₀ ∧
      run step l₀ [.open_ (granted 3), .destroy] = some l ∧ l.destroyed = true ∧ ¬ Kept l := by
  refine ⟨_, _, rfl, rfl, rfl, fun hk => ?_⟩
  exact absurd hk.owned (by decide)

/-- The same life for a process without a standard input. -/
theorem kept_iff_zero :
    ∃ l₀ l, Life.init 0 com = some l₀ ∧
      run step l₀ [.open_ (granted 0), .destroy] = some l ∧
      (Kept l ↔ ∃ os, .open_ os ∈ [Op.open_ (granted 0), .destroy] ∧ OpensZero com.bytes os ∧
        ((0 : Int) = 0 ∨ [Op.open_ (granted 0), .destroy].head? = some (.open_ os))) :=
  ⟨_, _, rfl, rfl, kept_iff 0 com _ rfl _ _ rfl rfl⟩

end Autocom.Descriptors
