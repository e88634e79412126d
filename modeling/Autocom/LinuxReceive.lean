import Autocom.CallFrame
import Autocom.Completion
import Autocom.LinuxIo

/-! # The receive side down to the driver

What the driver takes from the line goes through the buffer of `thread_main` and
the input queue to the calls that drain it. The law holds in every run, whatever
`select` and `read` answer. They can also not tell the IO thread that the line
has gone: `Read` returns 0 for that too, and only a port that was closed makes
`recFrom` return -1. -/
namespace Autocom.LinuxReceive
open Autocom Autocom.Lib Autocom.Lib.Lts Autocom.Machine Autocom.LinuxIo
open Autocom.Expect (Regex)

/-! ## Where the bytes are -/

/-- What `recFrom` returned and `putIn` has not stored yet. -/
def inHand : IoPc → Bytes
  | .storing shot => shot
  | _ => []

/-- Stored, in hand and waiting make up what arrived, while the port is open and
the process there; closing the port flushes what waits. -/
structure Account (s : Sys) (rx arrived : Bytes) : Prop where
  initial : s.dev.log.stored ++ inHand s.io <+: arrived
  whole : s.dev.pc = some true → s.io ≠ .gone →
    s.dev.log.stored ++ inHand s.io ++ rx = arrived
  fresh : s.io = .absent ∨ s.io = .opening → arrived = [] ∧ rx = [] ∧ s.dev.pc ≠ some true

/-- Past `open`, and the process is there. -/
def runs : IoPc → Bool
  | .absent | .opening | .gone => false
  | _ => true

theorem runs_ne {pc : IoPc} (h : runs pc = true) :
    pc ≠ .absent ∧ pc ≠ .opening ∧ pc ≠ .gone := by
  refine ⟨?_, ?_, ?_⟩ <;> rintro rfl <;> cases h

/-- A step that stores nothing and takes nothing in hand. -/
theorem Account.stay {s : Sys} {rx arrived : Bytes} (h : Account s rx arrived) {t : Sys}
    (hstored : t.dev.log.stored = s.dev.log.stored) (hhand : inHand t.io = inHand s.io)
    (hpc : t.dev.pc = some true → s.dev.pc = some true) (hs : runs s.io = true)
    (ht : runs t.io = true) : Account t rx arrived := by
  refine ⟨by rw [hstored, hhand]; exact h.initial, fun hport _ => ?_, fun hio => ?_⟩
  · rw [hstored, hhand]
    exact h.whole (hpc hport) (runs_ne hs).2.2
  · rcases hio with hio | hio
    · exact absurd hio (runs_ne ht).1
    · exact absurd hio (runs_ne ht).2.1

theorem Account.gone {s : Sys} {rx arrived : Bytes} (h : Account s rx arrived)
    (d : Dev) (hstored : d.log.stored = s.dev.log.stored) (sc : ScriptPc) :
    Account ⟨d, sc, .gone⟩ rx arrived := by
  refine ⟨?_, fun _ hio => absurd rfl hio, nofun⟩
  rw [hstored]
  simp only [inHand, List.append_nil]
  exact (List.prefix_append _ _).trans h.initial

/-! ## One step -/

theorem Account.call {dev d : Dev} {sc sc' : ScriptPc} {io io' : IoPc} {rx arrived : Bytes}
    (h : Account ⟨dev, sc, io⟩ rx arrived) {regex : Regex} {pc pc' : CallPc} {a : CallAct}
    (hcall : callStep regex dev pc a = some (d, pc')) (hhand : inHand io' = inHand io)
    (hs : runs io = true) (ht : runs io' = true) : Account ⟨d, sc', io'⟩ rx arrived :=
  h.stay (callStep_effect hcall).moved.frame.2.2.2 hhand (callStep_port hcall).1 hs ht

/-- The IO thread stays where it is. -/
theorem Account.script {dev d : Dev} {sc sc' : ScriptPc} {io : IoPc} {rx arrived : Bytes}
    (h : Account ⟨dev, sc, io⟩ rx arrived) (hstored : d.log.stored = dev.log.stored)
    (hpc : d.pc = some true → dev.pc = some true) : Account ⟨d, sc', io⟩ rx arrived := by
  refine ⟨?_, fun ht hio => ?_, fun hio => ?_⟩
  · rw [hstored]; exact h.initial
  · rw [hstored]; exact h.whole (hpc ht) hio
  · obtain ⟨harrived, hrx, hport⟩ := h.fresh hio
    exact ⟨harrived, hrx, fun ht => hport (hpc ht)⟩

theorem shut_pc {d : Dev} (h : d.shut.pc = some true) : d.pc = some true := by
  cases hpc : d.pc with
  | none => simp [Dev.shut, hpc] at h
  | some port => simp [Dev.shut, hpc] at h

theorem machine_account {regex : Regex} {s u : Sys} {a : Act} {rx arrived : Bytes}
    (h : Account s rx arrived) (hearly : Unstarted s)
    (hcode : ∀ shot, a ≠ .io (.received shot)) (hstep : Machine.step regex s a = some u) :
    Account u rx arrived := by
  refine step_induct (Q := fun u => Account u rx arrived) ?_ ?_ ?_ hstep
  · exact fun u hu => hu.gone u.dev rfl .gone
  · intro b d pc hb hmove
    obtain ⟨dev, sc, io⟩ := s
    cases hmove with
    | opened port =>
      obtain ⟨harrived, hrx, -⟩ := h.fresh (.inr rfl)
      have hstored := h.initial
      rw [harrived, List.prefix_nil, List.append_eq_nil_iff] at hstored
      refine ⟨?_, fun _ _ => ?_, nofun⟩
      · rw [harrived, hstored.1]; exact List.prefix_rfl
      · rw [harrived, hrx, hstored.1]; rfl
    | refused rv port hrv =>
      obtain ⟨harrived, hrx, -⟩ := h.fresh (.inr rfl)
      have hstored := h.initial
      rw [harrived, List.prefix_nil, List.append_eq_nil_iff] at hstored
      refine ⟨?_, fun _ _ => ?_, nofun⟩
      · rw [harrived, hstored.1]; exact List.prefix_rfl
      · rw [harrived, hrx, hstored.1]; rfl
    | received shot hpc hshot => exact absurd hb (hcode _)
    | stored shot pc hpc =>
      have hinitial : dev.log.stored ++ shot <+: arrived := h.initial
      refine ⟨?_, fun ht _ => ?_, fun hio => ?_⟩
      · rcases hpc with rfl | rfl <;> simpa [inHand] using hinitial
      · have hwhole : dev.log.stored ++ shot ++ rx = arrived := h.whole ht nofun
        rcases hpc with rfl | rfl <;> simpa [inHand] using hwhole
      · rcases hpc with rfl | rfl <;> rcases hio with hio | hio <;> cases hio
    | callback pc pc' a d' hcall => exact h.call hcall rfl rfl rfl
    | left d' hd =>
      rcases hd with rfl | rfl
      · exact h.stay rfl rfl id rfl rfl
      · exact h.stay rfl rfl shut_pc rfl rfl
    | closed => exact h.stay rfl rfl shut_pc rfl rfl
    | _ => exact h.stay rfl rfl id rfl rfl
  · intro b d pc io _ hmove
    obtain ⟨dev, sc, io₀⟩ := s
    cases hmove with
    | call pc pc' a d' hcall =>
      exact h.script (callStep_effect hcall).moved.frame.2.2.2 (callStep_port hcall).1
    | started =>
      obtain rfl : io₀ = .absent := hearly rfl
      exact ⟨h.initial, fun ht _ => h.whole ht nofun, fun _ => h.fresh (.inl rfl)⟩
    | unstarted | nullClose => exact h.gone _ rfl _
    | construct => exact h.script rfl nofun
    | close => exact h.script rfl shut_pc
    | destroyed => exact h.script rfl nofun
    | _ => exact h.script rfl id

/-- Closing the port flushes the driver. -/
theorem Account.flush {s : Sys} {rx arrived : Bytes} (h : Account s rx arrived) :
    Account s (if s.dev.pc = some true then rx else []) arrived := by
  split
  · exact h
  · next hpc => exact ⟨h.initial, fun ht => absurd ht hpc, fun hio => ⟨(h.fresh hio).1, rfl, hpc⟩⟩

/-- The buffers and the books, in a state of the Linux IO thread. -/
structure Inv (s : Lin) : Prop where
  early : Unstarted s.sys
  account : Account s.sys s.rx s.arrived
  delivered : ∃ p, Receive.Delivers s.sys p

/-- A step inside `sendTo` or `recFrom`. -/
theorem Inv.inside {s t : Lin} (h : Inv s) (hs : runs s.sys.io = true)
    (hsc : t.script = s.script) (haccount : Account t.sys t.rx t.arrived)
    (hstored : t.dev.log.stored = s.dev.log.stored)
    (hdrained : t.dev.log.drained = s.dev.log.drained) (hin : t.dev.io.in_ = s.dev.io.in_) :
    Inv t := by
  obtain ⟨p, hp⟩ := h.delivered
  have hmoved : Receive.Moved p t.sys := hp.stay hstored hdrained hin
  obtain ⟨q, -, hq⟩ := hmoved
  refine ⟨fun hscript => ?_, haccount, q, hq⟩
  exact absurd (h.early (by rw [Lin.sys]; exact hsc ▸ hscript)) (runs_ne hs).1

theorem onWire_frame (d : Dev) (bytes : Bytes) :
    (onWire d bytes).log.stored = d.log.stored ∧ (onWire d bytes).log.drained = d.log.drained ∧
      (onWire d bytes).io = d.io ∧ (onWire d bytes).pc = d.pc := by
  unfold onWire
  split
  · exact ⟨rfl, rfl, rfl, rfl⟩
  · exact ⟨rfl, rfl, rfl, rfl⟩

theorem step_inv {regex : Regex} {s t : Lin} {a : LinAct} (h : Inv s)
    (hstep : step regex s a = some t) : Inv t := by
  cases a with
  | base a =>
    obtain ⟨hcode, hbase⟩ := base_step hstep
    obtain ⟨p, hp⟩ := h.delivered
    obtain ⟨q, -, hq⟩ := Receive.step_delivers hp hbase
    refine ⟨step_unstarted h.early hbase, ?_, q, hq⟩
    have haccount := machine_account h.account h.early
      (fun shot ha => by rw [ha] at hcode; cases hcode) hbase
    simp only [LinuxIo.step, hcode, Bool.false_eq_true, if_false] at hstep
    obtain ⟨u, hu, rfl⟩ := Option.map_eq_some_iff.mp hstep
    exact haccount.flush
  | enter tick =>
    obtain ⟨dev, sc, io, timout, rx, arrived⟩ := s
    simp only [LinuxIo.step] at hstep
    split at hstep
    · split at hstep
      · cases hstep
        exact h.inside rfl rfl (h.account.stay rfl rfl id rfl rfl) rfl rfl rfl
      · cases hstep
        exact h.inside rfl rfl (h.account.stay rfl rfl id rfl rfl) rfl rfl rfl
    · cases hstep
  | write p =>
    obtain ⟨dev, sc, io, timout, rx, arrived⟩ := s
    simp only [LinuxIo.step] at hstep
    split at hstep
    · split at hstep
      · cases hstep
        exact h.inside rfl rfl (h.account.stay rfl rfl id rfl rfl) rfl rfl rfl
      · next bytes _ =>
        obtain ⟨hstored, hdrained, hio, hpc⟩ := onWire_frame dev bytes
        have hport : (onWire dev bytes).pc = some true → dev.pc = some true := fun hp => hpc ▸ hp
        split at hstep
        · cases hstep
          exact h.inside rfl rfl (h.account.stay hstored rfl hport rfl rfl) hstored hdrained
            (congrArg IoData.in_ hio)
        · split at hstep
          · cases hstep
            exact h.inside rfl rfl (h.account.stay hstored rfl hport rfl rfl) hstored hdrained
              (congrArg IoData.in_ hio)
          · cases hstep
            exact h.inside rfl rfl (h.account.stay hstored rfl hport rfl rfl) hstored hdrained
              (congrArg IoData.in_ hio)
    · cases hstep
  | read o =>
    obtain ⟨dev, sc, io, timout, rx, arrived⟩ := s
    simp only [LinuxIo.step] at hstep
    split at hstep
    · have hinitial : dev.log.stored ++ [] <+: arrived := h.account.initial
      split at hstep
      · next hpc =>
        have hwhole : dev.log.stored ++ [] ++ rx = arrived :=
          h.account.whole hpc (runs_ne rfl).2.2
        obtain ⟨shot, hread, rfl⟩ := Option.map_eq_some_iff.mp hstep
        have hsplit := read_append hread
        split
        · exact h.inside rfl rfl (h.account.stay rfl rfl id rfl rfl) rfl rfl rfl
        · refine h.inside rfl rfl ⟨?_, fun _ _ => ?_, fun hio => ?_⟩ rfl rfl rfl
          · refine ⟨rx.drop shot.length, ?_⟩
            rw [← hwhole, ← hsplit]
            simp [Lin.sys, Pc.contract, inHand]
          · rw [← hwhole, ← hsplit]
            simp [Lin.sys, Pc.contract, inHand]
          · rcases hio with hio | hio <;> cases hio
      · cases hstep
        exact h.inside rfl rfl (h.account.stay rfl rfl id rfl rfl) rfl rfl rfl
    · cases hstep
  | arrive bs =>
    cases hstep
    split
    · next hpc =>
      refine ⟨h.early, ⟨?_, fun ht hio => ?_, fun hio => ?_⟩, h.delivered⟩
      · exact h.account.initial.trans (List.prefix_append _ _)
      · rw [← h.account.whole ht hio]
        simp [Lin.sys]
      · exact absurd hpc (h.account.fresh hio).2.2
    · exact h

theorem inv_init (cred : CString) (proc : Option CString) : Inv (Lin.init cred proc) :=
  ⟨fun _ => rfl, ⟨List.prefix_rfl, fun _ _ => rfl, fun _ => ⟨rfl, rfl, nofun⟩⟩,
    Pipe.empty, rfl, rfl, rfl⟩

/-! ## Every run -/

/-- Past a successful `open` and not on the way out. -/
def polls : IoPc → Bool
  | .entering => true
  | pc => Completion.inLoop pc

theorem polls_of_inLoop {pc : IoPc} (h : Completion.inLoop pc = true) : polls pc = true := by
  cases pc with
  | entering => rfl
  | _ => exact h

def ScriptPc.dtor : ScriptPc → Bool
  | .dtorClose | .dtorStop | .dtorWait | .destroyed => true
  | _ => false

/-- Nobody closes or destroys the device and no `write` fails. -/
def Undisturbed : LinAct → Prop
  | .base (.script .destroy) => False
  | .base (.script (.act a)) | .base (.io (.callback a)) => isClose a = false
  | .write p => p.outcome ≠ .fail
  | _ => True

structure Up (s : Sys) : Prop where
  dtor : ScriptPc.dtor s.script = false
  alive : s.script = .starting ∨ s.io = .opening ∨ polls s.io = true → s.dev.alive = true
  port : polls s.io = true → s.dev.pc = some true
  cancall : s.dev.cancall = true → Completion.inLoop s.io = true ∨ s.io = .gone

theorem Up.polling {s : Sys} (h : Up s) {t : Sys} (hsc : t.script = s.script)
    (halive : t.dev.alive = true) (hport : t.dev.pc = some true)
    (hloop : Completion.inLoop t.io = true) : Up t :=
  ⟨hsc ▸ h.dtor, fun _ => halive, fun _ => hport, fun _ => .inl hloop⟩

/-- A failed `open` is left behind before `_cancall` is set. -/
theorem Up.failed {dev d : Dev} {sc : ScriptPc} {io pc : IoPc} (h : Up ⟨dev, sc, io⟩)
    (hout : Completion.inLoop io = false ∧ io ≠ .gone) (halive : d.alive = dev.alive)
    (hcancall : d.cancall = dev.cancall) (hpc : polls pc = false ∧ pc ≠ .opening) :
    Up ⟨d, sc, pc⟩ := by
  have hpolls : polls pc ≠ true := Bool.eq_false_iff.mp hpc.1
  refine ⟨h.dtor, fun hup => ?_, fun hp => absurd hp hpolls, fun hc => ?_⟩
  · rcases hup with hsc | hio | hp
    · exact halive.trans (h.alive (.inl hsc))
    · exact absurd hio hpc.2
    · exact absurd hp hpolls
  · rcases h.cancall (hcancall ▸ hc) with hloop | hgone
    · rw [hout.1] at hloop; cases hloop
    · exact absurd hgone hout.2

theorem Up.gone (d : Dev) : Up ⟨d, .gone, .gone⟩ := by
  refine ⟨rfl, fun h => ?_, nofun, fun _ => .inr rfl⟩
  rcases h with h | h | h <;> cases h

/-- The script moves and leaves the flags of the IO thread alone. -/
theorem Up.script {dev d : Dev} {sc sc' : ScriptPc} {io : IoPc} (h : Up ⟨dev, sc, io⟩)
    (hdtor : ScriptPc.dtor sc' = false) (hstart : sc' ≠ .starting) (halive : d.alive = dev.alive)
    (hcancall : d.cancall = dev.cancall) (hport : d.pc = dev.pc) : Up ⟨d, sc', io⟩ := by
  refine ⟨hdtor, fun hup => ?_, fun hpolls => hport.trans (h.port hpolls),
    fun hc => h.cancall (hcancall ▸ hc)⟩
  rcases hup with hsc | hio
  · exact absurd hsc hstart
  · exact halive.trans (h.alive (.inr hio))

/-- **A step of the machine** in which nobody closes, destroys or fails. -/
theorem machine_up {regex : Regex} {s u : Sys} {a : Act} (h : Up s) (hearly : Unstarted s)
    (hcalm : Undisturbed (.base a)) (hsent : ∀ rv, a ≠ .io (.sent rv))
    (hlost : a ≠ .io (.received none)) (hstep : Machine.step regex s a = some u) : Up u := by
  refine step_induct (Q := Up) ?_ ?_ ?_ hstep
  · exact fun u _ => .gone u.dev
  · intro b d pc hb hmove
    obtain ⟨dev, sc, io⟩ := s
    have hloop : Completion.inLoop io = true → dev.alive = true ∧ dev.pc = some true :=
      fun hin => ⟨h.alive (.inr (.inr (polls_of_inLoop hin))), h.port (polls_of_inLoop hin)⟩
    cases hmove with
    | opened port =>
      refine ⟨h.dtor, fun _ => h.alive (.inr (.inl rfl)), fun _ => rfl, fun hc => ?_⟩
      rcases h.cancall hc with hin | hgone
      · cases hin
      · cases hgone
    | enter =>
      exact h.polling rfl (h.alive (.inr (.inr rfl))) (h.port rfl) rfl
    | stop halive => rw [(hloop rfl).1] at halive; cases halive
    | unsendable temp hpc => exact absurd (hloop rfl).2 hpc
    | sentAll | timedOut | sendFailed => exact absurd hb (hsent _)
    | lost => exact absurd hb hlost
    | stored shot pc hpc =>
      rcases hpc with rfl | rfl
      · exact h.polling rfl (hloop rfl).1 (hloop rfl).2 rfl
      · exact h.polling rfl (hloop rfl).1 (hloop rfl).2 rfl
    | callback pc pc' a d' hcall =>
      subst hb
      have heffect := callStep_effect hcall
      have hport := (callStep_port hcall).2 hcalm
      exact h.polling rfl (heffect.alive.trans (hloop rfl).1) (hport.trans (hloop rfl).2) rfl
    | refused | closed | ended =>
      exact h.failed ⟨rfl, nofun⟩ rfl rfl ⟨rfl, nofun⟩
    | left d' hd =>
      rcases hd with rfl | rfl
      · exact h.failed ⟨rfl, nofun⟩ rfl rfl ⟨rfl, nofun⟩
      · exact h.failed ⟨rfl, nofun⟩ rfl rfl ⟨rfl, nofun⟩
    | _ => exact h.polling rfl (hloop rfl).1 (hloop rfl).2 rfl
  · intro b d pc io hb hmove
    obtain ⟨dev, sc, io₀⟩ := s
    cases hmove with
    | construct cred htty =>
      obtain rfl : io₀ = .absent := hearly rfl
      exact ⟨rfl, fun _ => rfl, nofun, nofun⟩
    | started =>
      obtain rfl : io₀ = .absent := hearly rfl
      refine ⟨rfl, fun _ => h.alive (.inl rfl), nofun, fun hc => ?_⟩
      rcases h.cancall hc with hin | hgone
      · cases hin
      · cases hgone
    | unstarted | nullClose => exact .gone _
    | call pc pc' a d' hcall =>
      subst hb
      have heffect := callStep_effect hcall
      exact h.script rfl nofun heffect.alive heffect.cancall ((callStep_port hcall).2 hcalm)
    | destroy ret => subst hb; cases hcalm
    | close | stop | destroyed | unended => cases h.dtor
    | _ => exact h.script rfl nofun rfl rfl rfl

theorem step_up {regex : Regex} {s t : Lin} {a : LinAct} (h : Up s.sys) (hearly : Unstarted s.sys)
    (hcalm : Undisturbed a) (hstep : LinuxIo.step regex s a = some t) : Up t.sys := by
  cases a with
  | base a =>
    obtain ⟨hcode, hbase⟩ := base_step hstep
    exact machine_up h hearly hcalm (fun rv ha => by rw [ha] at hcode; cases hcode)
      (fun ha => by rw [ha] at hcode; cases hcode) hbase
  | enter tick =>
    obtain ⟨dev, sc, io, timout, rx, arrived⟩ := s
    simp only [LinuxIo.step] at hstep
    split at hstep
    · have hport : dev.pc = some true := h.port rfl
      rw [if_pos hport] at hstep
      cases hstep
      exact h.polling rfl (h.alive (.inr (.inr rfl))) hport rfl
    · cases hstep
  | write p =>
    obtain ⟨dev, sc, io, timout, rx, arrived⟩ := s
    simp only [LinuxIo.step] at hstep
    split at hstep
    · have hport : dev.pc = some true := h.port rfl
      have halive : dev.alive = true := h.alive (.inr (.inr rfl))
      split at hstep
      · next hwrite =>
        -- only a failing `write` gives nothing
        cases hout : p.outcome with
        | fail => exact absurd hout hcalm
        | accept n => rw [hout] at hwrite; cases hwrite
        | again => rw [hout] at hwrite; cases hwrite
      · next bytes _ =>
        have hd : (onWire dev bytes).alive = true ∧ (onWire dev bytes).pc = some true := by
          rw [onWire, if_pos hport]
          exact ⟨halive, hport⟩
        split at hstep
        · cases hstep
          exact h.polling rfl hd.1 hd.2 rfl
        · split at hstep
          · cases hstep
            exact h.polling rfl hd.1 hd.2 rfl
          · cases hstep
            exact h.polling rfl hd.1 hd.2 rfl
    · cases hstep
  | read o =>
    obtain ⟨dev, sc, io, timout, rx, arrived⟩ := s
    simp only [LinuxIo.step] at hstep
    split at hstep
    · have hport : dev.pc = some true := h.port rfl
      have halive : dev.alive = true := h.alive (.inr (.inr rfl))
      rw [if_pos hport] at hstep
      obtain ⟨shot, -, rfl⟩ := Option.map_eq_some_iff.mp hstep
      split
      · exact h.polling rfl halive hport rfl
      · exact h.polling rfl halive hport rfl
    · cases hstep
  | arrive bs =>
    cases hstep
    split
    · exact h
    · exact h

theorem up_init (cred : CString) (proc : Option CString) : Up (Lin.init cred proc).sys := by
  refine ⟨rfl, fun h => ?_, nofun, nofun⟩
  rcases h with h | h | h <;> cases h

/-- **A line that has gone is never noticed.** Once the port is open the IO thread
goes on polling it, whatever `select` and `read` answer, as long as nobody closes
or destroys the device and no `write` fails. -/
theorem polls_on (regex : Regex) (cred : CString) (proc : Option CString)
    (acts : List LinAct) (hcalm : ∀ a ∈ acts, Undisturbed a) (s : Lin)
    (h : run (LinuxIo.step regex) (Lin.init cred proc) acts = some s)
    (hopen : s.dev.cancall = true) :
    s.sys.io = .gone ∨ (Completion.inLoop s.sys.io = true ∧ s.dev.pc = some true) := by
  have hup : Inv s ∧ Up s.sys :=
    run_keeps (I := fun s => Inv s ∧ Up s.sys) (C := fun _ a => Undisturbed a)
      (fun _ _ _ hs ha hst => ⟨step_inv hs.1 hst, step_up hs.2 hs.1.early ha hst⟩)
      ⟨inv_init cred proc, up_init cred proc⟩ (meets_of_forall hcalm _) h
  rcases hup.2.cancall hopen with hloop | hgone
  · exact .inr ⟨hloop, hup.2.port (polls_of_inLoop hloop)⟩
  · exact .inl hgone

/-- Three bytes arrive, two are read, and then `read` finds the end of the line. -/
def hangsUp : List LinAct :=
  connect.map .base ++
  [.arrive [0x61, 0x62, 0x63], .base (.io .step), .base (.io .step), .read (.bytes 2),
    .base (.io .step), .base (.io .step), .base (.io .step), .read .nothing]

instance decidableUndisturbed : (a : LinAct) → Decidable (Undisturbed a)
  | .base (.script .destroy) => isFalse id
  | .base (.script (.act a)) | .base (.io (.callback a)) =>
    inferInstanceAs (Decidable (isClose a = false))
  | .write p => inferInstanceAs (Decidable (p.outcome ≠ .fail))
  | .base (.script .step) | .base (.script (.started _)) | .base (.io .step)
  | .base (.io (.opened _ _)) | .base (.io (.wrote _)) | .base (.io (.sent _))
  | .base (.io (.received _)) | .enter _ | .read _ | .arrive _ => isTrue trivial

theorem polls_on_hangsUp :
    ∃ s, run (LinuxIo.step fun _ => none) (Lin.init ttyCred none) hangsUp = some s ∧
      (s.sys.io = .gone ∨ (Completion.inLoop s.sys.io = true ∧ s.dev.pc = some true)) :=
  ⟨_, rfl, polls_on (fun _ => none) ttyCred none hangsUp (by decide) _ rfl rfl⟩

end Autocom.LinuxReceive
