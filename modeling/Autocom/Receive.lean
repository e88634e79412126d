import Autocom.Lib.Pipe
import Autocom.Machine

/-! # The receive side: a pipe read through C strings

From `putIn` to `getIn` the input buffer is a pipe in every run. What the text
calls keep of a buffer is its C string, so the pipe delivers everything exactly
as long as no buffer they drain holds a zero byte. -/
namespace Autocom.Receive
open Autocom Autocom.Lib Autocom.Lib.Lts Autocom.Machine
open Autocom.Expect (Regex)
open Relation (ReflTransGen)

/-- The pipe that starts at `putIn` holds the input buffer. -/
structure Delivers (s : Sys) (p : Pipe Byte) : Prop where
  put : p.put = s.dev.log.stored
  got : p.got = s.dev.log.taken
  rest : p.rest = s.dev.io.in_

/-- Drained and pending bytes make up what was stored. -/
theorem Delivers.law {s : Sys} {p : Pipe Byte} (h : Delivers s p) :
    s.dev.log.taken ++ s.dev.io.in_ = s.dev.log.stored := by
  rw [← h.put, ← h.got, ← h.rest]
  exact p.conserve

def Moved (p : Pipe Byte) (t : Sys) : Prop :=
  ∃ q, ReflTransGen Pipe.Moves p q ∧ Delivers t q

theorem Delivers.stay {s : Sys} {p : Pipe Byte} (h : Delivers s p) {d : Dev}
    {sc : ScriptPc} {io : IoPc} (hstored : d.log.stored = s.dev.log.stored)
    (hdrained : d.log.drained = s.dev.log.drained) (hin : d.io.in_ = s.dev.io.in_) :
    Moved p ⟨d, sc, io⟩ := by
  refine ⟨p, .refl, ⟨h.put.trans hstored.symm, h.got.trans ?_, h.rest.trans hin.symm⟩⟩
  simp only [Log.taken, hdrained]

/-- A step of a call takes all of the pipe or leaves it alone. -/
theorem Delivers.call {s : Sys} {p : Pipe Byte} (h : Delivers s p) {d : Dev} {pc pc' : CallPc}
    (heffect : CallEffect s.dev pc d pc') (sc : ScriptPc) (io : IoPc) : Moved p ⟨d, sc, io⟩ := by
  cases heffect.moved with
  | keep io_eq log_eq => exact h.stay (by rw [log_eq]) (by rw [log_eq]) (by rw [io_eq])
  | queue bs io_eq log_eq =>
    exact h.stay (by rw [log_eq]) (by rw [log_eq]) (by rw [io_eq, IoData.putOut_in])
  | drain text replies io_eq log_eq asked =>
    refine ⟨p.take p.rest.length, .single (.take p _), ⟨?_, ?_, ?_⟩⟩
    · rw [log_eq, Pipe.take_put, h.put]
    · rw [log_eq, Pipe.take_got, h.got, h.rest, List.take_length]
      simp [Log.taken]
    · rw [io_eq, Pipe.take_rest, List.drop_length]

/-- **One step.** -/
theorem step_delivers {regex : Regex} {s t : Sys} {a : Act} {p : Pipe Byte} (h : Delivers s p)
    (hstep : step regex s a = some t) : Moved p t := by
  refine step_induct (Q := Moved p) ?_ ?_ ?_ hstep
  · rintro u ⟨q, hmoves, hq⟩
    exact ⟨q, hmoves, ⟨hq.put, hq.got, hq.rest⟩⟩
  · intro b d pc _ hmove
    obtain ⟨dev, sc, io⟩ := s
    cases hmove with
    | stored shot pc hpc =>
      refine ⟨p.push shot, .single (.push p shot), ⟨?_, h.got, ?_⟩⟩
      · rw [Pipe.push_put, h.put]
      · rw [Pipe.push_rest, h.rest, IoData.putIn_in]
    | callback pc pc' a d' hcall => exact h.call (callStep_effect hcall) sc _
    | left d' hd => rcases hd with rfl | rfl <;> exact h.stay rfl rfl rfl
    | _ => exact h.stay rfl rfl rfl
  · intro b d pc io _ hmove
    obtain ⟨dev, sc, io₀⟩ := s
    cases hmove with
    | call pc pc' a d' hcall => exact h.call (callStep_effect hcall) _ io₀
    | _ => exact h.stay rfl rfl rfl

/-- **Every run refines the pipe.** -/
theorem run_delivers {regex : Regex} {cred : CString} {proc : Option CString} {s : Sys}
    {acts : List Act} (h : run (step regex) (Sys.init cred proc) acts = some s) :
    Moved Pipe.empty s :=
  run_refines (C := fun _ _ => True) (fun _ _ _ _ hs _ hst => step_delivers hs hst)
    ⟨rfl, rfl, rfl⟩ (meets_of_forall (C := fun _ => True) (fun _ _ => trivial) _) h

theorem taken_append_pending {regex : Regex} {cred : CString} {proc : Option CString} {s : Sys}
    (h : Reachable regex cred proc s) : s.dev.log.taken ++ s.dev.io.in_ = s.dev.log.stored := by
  obtain ⟨acts, hrun⟩ := h
  obtain ⟨q, -, hq⟩ := run_delivers hrun
  exact hq.law

/-! ## What the readers keep -/

/-- The bytes handed to the script: the text of `gets` and what the wait calls
append to `_accum`. -/
def handed (l : Log) : Bytes := l.drained.flatMap Drain.handed

theorem handed_initial (d : Drain) : d.handed <+: d.buf := by
  unfold Drain.handed
  split
  · exact cstr_initial d.buf
  · exact List.prefix_rfl

theorem handed_eq_buf_iff (d : Drain) : d.handed = d.buf ↔ (d.text = true → 0 ∉ d.buf) := by
  unfold Drain.handed
  by_cases htext : d.text = true
  · rw [if_pos htext, cstr_eq_self_iff]
    exact ⟨fun h _ => h, fun h => h htext⟩
  · rw [if_neg htext]
    exact ⟨fun _ h => absurd h htext, fun _ => rfl⟩

/-- Cutting each buffer short loses nothing only if it cuts nothing. -/
theorem flatMap_handed_eq_iff (l : List Drain) :
    l.flatMap Drain.handed = l.flatMap Drain.buf ↔ ∀ d ∈ l, d.handed = d.buf := by
  induction l with
  | nil => simp
  | cons d l ih =>
    have hle : ∀ l : List Drain,
        (l.flatMap Drain.handed).length ≤ (l.flatMap Drain.buf).length := by
      intro l
      induction l with
      | nil => simp
      | cons e l ih =>
        have he := (handed_initial e).length_le
        simp only [List.flatMap_cons, List.length_append]
        omega
    constructor
    · intro h
      have hlen := congrArg List.length h
      simp only [List.flatMap_cons, List.length_append] at hlen
      have hd := (handed_initial d).length_le
      have hl := hle l
      have hhead : d.handed = d.buf := (handed_initial d).eq_of_length (by omega)
      rw [List.flatMap_cons, List.flatMap_cons, hhead] at h
      have htail := ih.mp (List.append_cancel_left h)
      intro e he
      rcases List.mem_cons.mp he with rfl | he
      · exact hhead
      · exact htail e he
    · intro h
      rw [List.flatMap_cons, List.flatMap_cons, h d (by simp),
        ih.mpr fun e he => h e (by simp [he])]

/-- **No received byte is lost to the script exactly as long as no buffer that a
text call drained holds a zero byte**: the text handed over, followed by what
is pending, is then all that `putIn` stored. -/
theorem handed_append_pending_iff (regex : Regex) (cred : CString) (proc : Option CString)
    (acts : List Act) (s : Sys) (h : run (step regex) (Sys.init cred proc) acts = some s) :
    handed s.dev.log ++ s.dev.io.in_ = s.dev.log.stored ↔
      ∀ d ∈ s.dev.log.drained, d.text = true → 0 ∉ d.buf := by
  rw [← taken_append_pending ⟨acts, h⟩, List.append_left_inj]
  unfold handed Log.taken
  rw [flatMap_handed_eq_iff]
  exact forall₂_congr fun d _ => handed_eq_buf_iff d

/-- One chunk `a`, zero, `b` arrives and `gets` reads it. -/
def readsZero : List Act :=
  connect ++
  [.io .step, .io .step, .io (.received (some [0x61, 0, 0x62])), .io .step,
    .script (.act (.call .gets 0)), .script (.act (.turn ⟨0, 0, 0⟩))]

/-- The script gets `a`; the zero and the `b` are gone. -/
theorem zero_byte_loses_the_rest :
    ∃ s, run (step fun _ => none) (Sys.init ttyCred none) readsZero = some s ∧
      handed s.dev.log ++ s.dev.io.in_ ≠ s.dev.log.stored :=
  ⟨_, rfl, by decide⟩

/-- The same chunk without the zero. -/
def readsText : List Act :=
  connect ++
  [.io .step, .io .step, .io (.received (some [0x61, 0x62])), .io .step,
    .script (.act (.call .gets 0)), .script (.act (.turn ⟨0, 0, 0⟩))]

theorem handed_append_pending_iff_text :
    ∃ s, run (step fun _ => none) (Sys.init ttyCred none) readsText = some s ∧
      (handed s.dev.log ++ s.dev.io.in_ = s.dev.log.stored ↔
        ∀ d ∈ s.dev.log.drained, d.text = true → 0 ∉ d.buf) :=
  ⟨_, rfl, handed_append_pending_iff (fun _ => none) ttyCred none readsText _ rfl⟩

end Autocom.Receive
