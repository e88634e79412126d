import Autocom.Machine

/-! # Which devices can be destroyed again

The constructor waits for `_cancall`, which `thread_main` sets only after a
successful `open`; the destructor dereferences `_pc` and waits for `_ended`,
which exist only for a `tty://` credential. No run strands a thread exactly when
the credential begins with `tty://` and `open` returns 0. -/
namespace Autocom.Lifecycle
open Autocom Autocom.Lib.Lts Autocom.Machine
open Autocom.Expect (Regex)

/-- The constructor waits for a `thread_main` that has finished, the destructor
is about to dereference null, or it waits for a thread that was never started. -/
def Stranded (s : Sys) : Prop :=
  (s.script = .ctorWait ∧ s.dev.cancall = false ∧ s.io = .ended) ∨
    (s.script = .dtorClose ∧ s.dev.pc = none) ∨
    (s.script = .dtorWait ∧ s.io = .absent)

/-- `open`, where it is called, returns `rv`. -/
def opensWith (rv : Int) : Act → Bool
  | .io (.opened v _) => v == rv
  | _ => true

/-! ## The invariant of a device that comes up -/

/-- `_pc` has been created and not deleted. -/
def ownsComm : ScriptPc → Bool
  | .constructing _ | .destroyed | .gone => false
  | _ => true

/-- `thread_main` has set `_cancall`, if `open` returned 0. -/
def pastOpen : IoPc → Bool
  | .absent | .opening | .entering | .gone => false
  | _ => true

structure Inv (s : Sys) : Prop where
  tty : ∀ cred, s.script = .constructing cred → isTty cred = true
  comm : ownsComm s.script = true → s.dev.pc ≠ none
  unstarted : Unstarted s
  started : s.script.early = false → s.io ≠ .absent
  called : pastOpen s.io = true → s.dev.cancall = true

theorem Inv.not_stranded {s : Sys} (h : Inv s) : ¬ Stranded s := by
  rintro (⟨-, hcancall, hio⟩ | ⟨hscript, hpc⟩ | ⟨hscript, hio⟩)
  · have htrue := h.called (by rw [hio]; rfl)
    rw [hcancall] at htrue; cases htrue
  · exact h.comm (by rw [hscript]; rfl) hpc
  · exact h.started (by rw [hscript]; rfl) hio

theorem isSome_ne_none {d d' : Dev} (h : d'.pc.isSome = d.pc.isSome) (hpc : d.pc ≠ none) :
    d'.pc ≠ none := by
  rw [← Option.isSome_iff_ne_none] at hpc ⊢
  rw [h, hpc]

/-- A step of the IO thread from `sc` on, with the script thread where it was. -/
theorem Inv.io_step {s : Sys} (h : Inv s) {d : Dev} {pc : IoPc} (hpc : pc ≠ .absent)
    (hrun : s.io ≠ .absent) (hsome : s.dev.pc ≠ none → d.pc ≠ none)
    (hcalled : pastOpen pc = true → d.cancall = true) : Inv ⟨d, s.script, pc⟩ :=
  ⟨h.tty, fun hown => hsome (h.comm hown), fun hearly => absurd (h.unstarted hearly) hrun,
    fun _ => hpc, hcalled⟩

/-- A state past `start_thread`. -/
theorem Inv.late {d : Dev} {sc : ScriptPc} {io : IoPc} (hlate : sc.early = false)
    (hio : io ≠ .absent) (hcomm : ownsComm sc = true → d.pc ≠ none)
    (hcalled : pastOpen io = true → d.cancall = true) : Inv ⟨d, sc, io⟩ := by
  refine ⟨?_, hcomm, unstarted_of_late hlate, fun _ => hio, hcalled⟩
  intro cred hcred
  obtain rfl : sc = .constructing cred := hcred
  cases hlate

theorem Inv.gone (d : Dev) : Inv ⟨d, .gone, .gone⟩ := by
  refine .late rfl ?_ ?_ ?_
  · intro h; cases h
  · intro h; cases h
  · intro h; cases h

/-- **One step**, when `open` returns 0. -/
theorem step_inv {regex : Regex} {s t : Sys} {a : Act} (h : Inv s)
    (hopen : opensWith 0 a = true) (hstep : step regex s a = some t) : Inv t := by
  refine step_induct (Q := Inv) ?_ ?_ ?_ hstep
  · exact fun u _ => .gone u.dev
  · intro b d pc hb hmove
    obtain ⟨dev, sc, io⟩ := s
    have hshut : dev.pc ≠ none → dev.shut.pc ≠ none :=
      isSome_ne_none (by simp [Dev.shut])
    obtain ⟨hrun, hpc⟩ := hmove.ran
    cases hmove with
    | opened port => exact h.io_step hpc hrun (fun _ => Option.some_ne_none true) Bool.noConfusion
    | refused rv port hrv =>
      subst hb
      exact absurd (by simpa [opensWith] using hopen) hrv
    | enter => exact h.io_step hpc hrun id fun _ => rfl
    | callback pc pc' a d' hcall =>
      have heffect := callStep_effect hcall
      exact h.io_step hpc hrun (isSome_ne_none heffect.pc_some)
        fun _ => heffect.cancall.trans (h.called rfl)
    | closed => exact h.io_step hpc hrun hshut fun _ => h.called rfl
    | left d' hd =>
      rcases hd with rfl | rfl
      · exact h.io_step hpc hrun id fun _ => h.called rfl
      · exact h.io_step hpc hrun hshut fun _ => h.called rfl
    | _ => exact h.io_step hpc hrun id fun _ => h.called rfl
  · intro b d pc io _ hmove
    obtain ⟨dev, sc, io₀⟩ := s
    cases hmove with
    | construct cred htty =>
      obtain rfl : io₀ = .absent := h.unstarted rfl
      refine ⟨?_, ?_, fun _ => rfl, ?_, ?_⟩
      · intro c hc; cases hc
      · intro _ hnone; cases hnone
      · intro hearly; cases hearly
      · intro hpast; cases hpast
    | portless cred htty =>
      have htrue := h.tty cred rfl
      rw [htty] at htrue; cases htrue
    | started =>
      refine .late rfl ?_ (fun _ => h.comm rfl) ?_
      · intro hio; cases hio
      · intro hpast; cases hpast
    | unstarted => exact .gone dev
    | call pc pc' a d' hcall =>
      have heffect := callStep_effect hcall
      exact .late rfl (h.started rfl) (fun _ => isSome_ne_none heffect.pc_some (h.comm rfl))
        fun hio => heffect.cancall.trans (h.called hio)
    | nullClose => exact .gone dev
    | close hpc =>
      exact .late rfl (h.started rfl) (fun _ => isSome_ne_none (by simp [Dev.shut]) hpc) h.called
    | destroyed =>
      refine .late rfl (h.started rfl) ?_ h.called
      intro hown; cases hown
    | _ => exact .late rfl (h.started rfl) (fun _ => h.comm rfl) h.called

theorem not_stranded {regex : Regex} {cred : CString} {proc : Option CString} {s : Sys}
    {acts : List Act} (htty : isTty cred = true) (hopen : ∀ a ∈ acts, opensWith 0 a = true)
    (h : run (step regex) (Sys.init cred proc) acts = some s) : ¬ Stranded s := by
  have hinit : Inv (Sys.init cred proc) := by
    refine ⟨?_, ?_, fun _ => rfl, ?_, ?_⟩
    · intro c hc
      cases hc
      exact htty
    · intro hown; cases hown
    · intro hlate; cases hlate
    · intro hpast; cases hpast
  exact (run_keeps (I := Inv) (C := fun _ a => opensWith 0 a = true)
    (fun _ _ _ hs ha hst => step_inv hs ha hst) hinit (meets_of_forall hopen _) h).not_stranded

/-! ## The devices that do not come up -/

/-- Without a port the destructor meets a null `_pc`. -/
theorem portless_stranded (regex : Regex) {cred : CString} (proc : Option CString)
    (htty : isTty cred = false) :
    ∃ s, run (step regex) (Sys.init cred proc) [.script .step, .script .destroy] = some s ∧
      Stranded s := by
  refine ⟨⟨Dev.init proc, .dtorClose, .absent⟩, ?_, .inr (.inl ⟨rfl, rfl⟩)⟩
  simp only [run, step, Sys.init, scriptStep, htty]
  rfl

/-- If `open` fails, `thread_main` finishes and nothing ever sets `_cancall`. -/
theorem refused_stranded (regex : Regex) {cred : CString} (proc : Option CString) {rv : Int}
    (htty : isTty cred = true) (hrv : rv ≠ 0) :
    ∃ s, run (step regex) (Sys.init cred proc)
        [.script .step, .script (.started true), .io (.opened rv false), .io .step, .io .step] =
          some s ∧ Stranded s := by
  refine ⟨⟨{ Dev.init proc with pc := some false, alive := true, ended := true }, .ctorWait,
    .ended⟩, ?_, .inl ⟨rfl, rfl, rfl⟩⟩
  simp only [run, step, Sys.init, scriptStep, htty]
  simp [Sys.settle, ioStep, hrv, Dev.init]

/-- **A device strands no thread, in any run, exactly when its credential begins
with `tty://` and its port opens.** -/
theorem never_stranded_iff (regex : Regex) (cred : CString) (proc : Option CString) (rv : Int) :
    (∀ acts s, (∀ a ∈ acts, opensWith rv a = true) →
        run (step regex) (Sys.init cred proc) acts = some s → ¬ Stranded s) ↔
      isTty cred = true ∧ rv = 0 := by
  constructor
  · intro hnever
    by_cases htty : isTty cred = true
    · refine ⟨htty, ?_⟩
      by_contra hrv
      obtain ⟨s, hrun, hs⟩ := refused_stranded regex proc htty hrv
      exact hnever _ s (by simp [opensWith]) hrun hs
    · obtain ⟨s, hrun, hs⟩ := portless_stranded regex proc (Bool.eq_false_iff.mpr htty)
      exact absurd hs (hnever _ s (by simp [opensWith]) hrun)
  · rintro ⟨htty, rfl⟩ acts s hopen hrun
    exact not_stranded htty hopen hrun

/-- `open` of a busy port returns 1: the constructor never returns. -/
theorem busy_port_stranded :
    ∃ s, run (step fun _ => none) (Sys.init ttyCred none)
        [.script .step, .script (.started true), .io (.opened 1 true), .io .step, .io .step] =
          some s ∧ Stranded s :=
  ⟨_, rfl, .inl ⟨rfl, rfl, rfl⟩⟩

end Autocom.Lifecycle
