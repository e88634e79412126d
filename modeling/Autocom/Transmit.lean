import Autocom.Lib.Pipe
import Autocom.Machine

/-! # The transmit side is a pipe while no `sendTo` times out

`SendBuf` returns 1 when it times out with bytes left, and `thread_main` reacts
to -1 only: the rest of the buffer is dropped and the next one follows. Every
run without a timeout moves bytes through one `Pipe` from `putOut` to the wire;
the counterexample is the shortest run with one. -/
namespace Autocom.Transmit
open Autocom Autocom.Lib Autocom.Lib.Lts Autocom.Machine
open Autocom.Expect (Regex)
open Relation (ReflTransGen)

/-- What the IO thread has taken out of the queue and still means to send;
`none` once it sends nothing more. -/
def inflight : IoPc → Option Bytes
  | .calling temp => some temp
  | .sending _ left => some left
  | .closing | .leaving | .ending | .ended | .gone => none
  | _ => some []

/-- The pipe holds what is in flight, then what is queued. -/
structure Carries (s : Sys) (p : Pipe Byte) : Prop where
  put : p.put = s.dev.log.queued
  got : p.got = s.dev.log.wire
  rest : ∀ w, inflight s.io = some w → p.rest = w ++ s.dev.io.out_

/-- The next state carries a pipe that came from `p` by pushes and takes. -/
def Moved (p : Pipe Byte) (t : Sys) : Prop :=
  ∃ q, ReflTransGen Pipe.Moves p q ∧ Carries t q

theorem Carries.stay {s : Sys} {p : Pipe Byte} (h : Carries s p) {d : Dev} {sc : ScriptPc}
    {io : IoPc} (hqueued : d.log.queued = s.dev.log.queued) (hwire : d.log.wire = s.dev.log.wire)
    (hrest : ∀ w, inflight io = some w →
      ∃ v, inflight s.io = some v ∧ w ++ d.io.out_ = v ++ s.dev.io.out_) :
    Moved p ⟨d, sc, io⟩ := by
  refine ⟨p, .refl, ⟨h.put.trans hqueued.symm, h.got.trans hwire.symm, ?_⟩⟩
  intro w hw
  obtain ⟨v, hv, heq⟩ := hrest w hw
  exact (h.rest v hv).trans heq.symm

/-- A step of a call puts something into the pipe or leaves it alone. -/
theorem Carries.call {s : Sys} {p : Pipe Byte} (h : Carries s p) {d : Dev} {pc pc' : CallPc}
    (heffect : CallEffect s.dev pc d pc') {sc : ScriptPc} {io : IoPc}
    (hio : inflight io = inflight s.io) : Moved p ⟨d, sc, io⟩ := by
  cases heffect.moved with
  | keep io_eq log_eq =>
    refine h.stay (by rw [log_eq]) (by rw [log_eq]) ?_
    intro w hw
    exact ⟨w, hio ▸ hw, by rw [io_eq]⟩
  | queue bs io_eq log_eq =>
    refine ⟨p.push bs, .single (.push p bs), ⟨?_, ?_, ?_⟩⟩
    · rw [log_eq, Pipe.push_put, h.put]
    · rw [log_eq, Pipe.push_got, h.got]
    · intro w hw
      simp only at hw ⊢
      rw [Pipe.push_rest, h.rest w (hio ▸ hw), io_eq, IoData.putOut_out, List.append_assoc]
  | drain text replies io_eq log_eq asked =>
    refine h.stay (by rw [log_eq]) (by rw [log_eq]) ?_
    intro w hw
    exact ⟨w, hio ▸ hw, by rw [io_eq]⟩

/-- `sendTo` returns 1: the clock ran out with bytes left. -/
def timesOut : Act → Bool
  | .io (.sent rv) => rv == 1
  | _ => false

/-- **One step.** Every step but a timed-out `sendTo` is a move of the pipe. -/
theorem step_carries {regex : Regex} {s t : Sys} {a : Act} {p : Pipe Byte} (h : Carries s p)
    (hearly : Unstarted s) (htimeout : timesOut a = false)
    (hstep : step regex s a = some t) : Moved p t := by
  refine step_induct (Q := Moved p) ?_ ?_ ?_ hstep
  · rintro u ⟨q, hmoves, hq⟩
    exact ⟨q, hmoves, ⟨hq.put, hq.got, nofun⟩⟩
  · intro b d pc hb hmove
    obtain ⟨dev, sc, io⟩ := s
    cases hmove with
    | fetch =>
      refine h.stay rfl rfl ?_
      intro w hw
      exact ⟨[], rfl, by simpa using (Option.some.inj hw).symm⟩
    | wrote temp left n =>
      have hrest : p.rest = left ++ dev.io.out_ := h.rest left rfl
      refine ⟨p.take (left.take n).length, .single (.take p _), ⟨h.put, ?_, ?_⟩⟩
      · have hfront : left.take n <+: p.rest := by
          rw [hrest]
          exact (List.take_prefix n left).trans (List.prefix_append _ _)
        have htake : p.rest.take (left.take n).length = left.take n :=
          (List.prefix_iff_eq_take.mp hfront).symm
        rw [Pipe.take_got, htake, h.got]
      · intro w hw
        obtain rfl : left.drop n = w := Option.some.inj hw
        have hsplit : p.rest = left.take n ++ (left.drop n ++ dev.io.out_) := by
          rw [hrest, ← List.append_assoc, List.take_append_drop]
        rw [Pipe.take_rest, hsplit, List.drop_left]
    | timedOut temp left hleft => subst hb; cases htimeout
    | callback pc pc' a d' hcall => exact h.call (callStep_effect hcall) rfl
    | stored shot pc hpc =>
      refine h.stay rfl rfl ?_
      rcases hpc with rfl | rfl
      · exact fun w hw => ⟨w, hw, rfl⟩
      · exact fun w hw => ⟨w, hw, rfl⟩
    | left d' hd =>
      rcases hd with rfl | rfl
      · exact h.stay rfl rfl nofun
      · exact h.stay rfl rfl nofun
    | stop | refused | unsendable | sendFailed | lost | closed | ended =>
      exact h.stay rfl rfl nofun
    | _ => exact h.stay rfl rfl fun w hw => ⟨w, hw, rfl⟩
  · intro b d pc io hb hmove
    obtain ⟨dev, sc, io₀⟩ := s
    cases hmove with
    | call pc pc' a d' hcall => exact h.call (callStep_effect hcall) rfl
    | started =>
      obtain rfl : io₀ = .absent := hearly rfl
      exact h.stay rfl rfl fun w hw => ⟨w, hw, rfl⟩
    | unstarted | nullClose => exact h.stay rfl rfl nofun
    | _ => exact h.stay rfl rfl fun w hw => ⟨w, hw, rfl⟩

theorem carries_init (cred : CString) (proc : Option CString) :
    Carries (Sys.init cred proc) Pipe.empty :=
  ⟨rfl, rfl, fun w hw => by cases hw; rfl⟩

/-- A step that puts bytes on the wire. -/
def putsOnWire : Act → Bool
  | .io (.wrote n) => n != 0
  | _ => false

/-- Nothing is put on the wire once a `sendTo` has timed out. -/
def silentAfterTimeout : List Act → Bool
  | [] => true
  | a :: rest => if timesOut a then rest.all (! putsOnWire ·) else silentAfterTimeout rest

/-- The wire stays as it is and the script may queue more. -/
def Holds (s t : Sys) : Prop :=
  t.dev.log.wire = s.dev.log.wire ∧ s.dev.log.queued <+: t.dev.log.queued

theorem holds_of_call {s : Sys} {d : Dev} {pc pc' : CallPc} (h : CallEffect s.dev pc d pc')
    (sc : ScriptPc) (io : IoPc) : Holds s ⟨d, sc, io⟩ :=
  ⟨h.moved.frame.1, h.moved.queued_initial⟩

theorem step_holds {regex : Regex} {s t : Sys} {a : Act} (hquiet : putsOnWire a = false)
    (hstep : step regex s a = some t) : Holds s t := by
  refine step_induct (Q := Holds s) ?_ ?_ ?_ hstep
  · exact fun u hu => hu
  · intro b d pc hb hmove
    obtain ⟨dev, sc, io⟩ := s
    cases hmove with
    | wrote temp left n =>
      subst hb
      obtain rfl : n = 0 := by simpa [putsOnWire] using hquiet
      exact ⟨by simp, List.prefix_rfl⟩
    | callback pc pc' a d' hcall => exact holds_of_call (callStep_effect hcall) sc _
    | left d' hd => rcases hd with rfl | rfl <;> exact ⟨rfl, List.prefix_rfl⟩
    | _ => exact ⟨rfl, List.prefix_rfl⟩
  · intro b d pc io _ hmove
    obtain ⟨dev, sc, io₀⟩ := s
    cases hmove with
    | call pc pc' a d' hcall => exact holds_of_call (callStep_effect hcall) _ io₀
    | _ => exact ⟨rfl, List.prefix_rfl⟩

theorem run_holds {regex : Regex} {s t : Sys} {acts : List Act}
    (hquiet : ∀ a ∈ acts, putsOnWire a = false) (h : run (step regex) s acts = some t) :
    Holds s t :=
  run_keeps (I := Holds s) (C := fun _ a => putsOnWire a = false)
    (fun _ _ _ hs ha hst =>
      have hone := step_holds ha hst
      ⟨hone.1.trans hs.1, hs.2.trans hone.2⟩)
    ⟨rfl, List.prefix_rfl⟩ (meets_of_forall hquiet _) h

theorem wire_prefix_from {regex : Regex} {s t : Sys} {acts : List Act} {p : Pipe Byte}
    (hs : Carries s p) (hearly : Unstarted s) (hsilent : silentAfterTimeout acts = true)
    (h : run (step regex) s acts = some t) : t.dev.log.wire <+: t.dev.log.queued := by
  induction acts generalizing s p with
  | nil =>
    cases h
    rw [← hs.put, ← hs.got]
    exact p.got_prefix
  | cons a rest ih =>
    obtain ⟨m, hstep, hrest⟩ := run_cons.mp h
    unfold silentAfterTimeout at hsilent
    split at hsilent
    · next htimeout =>
      -- the timed-out call puts nothing more on the wire either
      have hquiet : ∀ b ∈ a :: rest, putsOnWire b = false := by
        intro b hb
        rcases List.mem_cons.mp hb with rfl | hb
        · unfold timesOut at htimeout
          split at htimeout
          · rfl
          · cases htimeout
        · simpa using List.all_eq_true.mp hsilent b hb
      obtain ⟨hwire, hqueued⟩ := run_holds hquiet h
      rw [hwire, ← hs.got]
      exact (hs.put ▸ p.got_prefix).trans hqueued
    · next htimeout =>
      obtain ⟨q, -, hq⟩ := step_carries hs hearly (Bool.eq_false_iff.mpr htimeout) hstep
      exact ih hq (step_unstarted hearly hstep) hsilent hrest

/-- **No hole and no duplicate**, in every run that puts nothing on the wire
after a `sendTo` has timed out. -/
theorem wire_prefix_of_silent (regex : Regex) (cred : CString) (proc : Option CString)
    (acts : List Act) (hsilent : silentAfterTimeout acts = true) (s : Sys)
    (h : run (step regex) (Sys.init cred proc) acts = some s) :
    s.dev.log.wire <+: s.dev.log.queued :=
  wire_prefix_from (carries_init cred proc) (fun _ => rfl) hsilent h

/-! ## The dropped rest -/

def ab : CString := ⟨[0x61, 0x62], by decide⟩
/-- `puts("ab")` of which `a` goes out before the timeout, then `puts("c")`. -/
def dropsRest : List Act :=
  connect ++
  [.script (.act (.call (.puts ab) 0)), .io .step, .io .step, .io .step, .io .step,
    .io (.wrote 1), .io (.sent 1), .script (.act (.turn ⟨0, 0, 0⟩)), .io (.received (some [])),
    .script (.act (.call (.puts charC) 0)), .io .step, .io .step, .io .step, .io .step,
    .io (.wrote 1), .io (.sent 0)]

/-- The wire carries `ac`, the script has queued `abc`. -/
theorem hole_on_the_wire :
    ∃ s, run (step fun _ => none) (Sys.init ttyCred none) dropsRest = some s ∧
      ¬ s.dev.log.wire <+: s.dev.log.queued :=
  ⟨_, rfl, by decide⟩

/-- The same two calls, with time for both bytes. -/
def sendsRest : List Act :=
  connect ++
  [.script (.act (.call (.puts ab) 0)), .io .step, .io .step, .io .step, .io .step,
    .io (.wrote 1), .io (.wrote 1), .io (.sent 0), .script (.act (.turn ⟨0, 0, 0⟩)),
    .script (.act (.call (.puts charC) 0))]

theorem wire_prefix_of_silent_two :
    ∃ s, run (step fun _ => none) (Sys.init ttyCred none) sendsRest = some s ∧
      s.dev.log.wire <+: s.dev.log.queued :=
  ⟨_, rfl, wire_prefix_of_silent (fun _ => none) ttyCred none sendsRest (by decide) _ rfl⟩

end Autocom.Transmit
