import Autocom.CallFrame

/-! # The thread object under a `Device`, on Linux

`SFoo` runs `thread_main` between two writes to `_stopped`, which the
constructor leaves as the memory was; `~OsThread` reads it after `~Device` has
seen `_ended`, and that is set before the second write. `_bstop` is read by
nobody here and is not part of the state. -/
namespace Autocom.OsThread
open Autocom Autocom.Lib.Lts Autocom.Machine
open Autocom.Expect (Regex)

/-! ## The object and its two threads -/

/-- The calls of the thread library. -/
inductive Pthread
  | attr_init
  | create
  | attr_destroy
  | join
  | detach
  deriving DecidableEq

/-- Where the IO thread is in `SFoo`: before its first write, inside
`thread_main`, after its second write. -/
inductive SFoo
  | absent
  | entered
  | running
  | returned
  deriving DecidableEq

/-- Where the owner is: in `Device`, the body of `~Device` included, or in
`~OsThread`. -/
inductive Own
  | device
  | stopping
  | rechecking
  | joining
  | detaching
  | freed
  deriving DecidableEq

structure Thr where
  sys : Sys
  stopped : Int
  joined : Bool
  /-- `_hthread` is not 0 -/
  hthread : Bool
  init : Int
  sfoo : SFoo
  own : Own
  calls : List Pthread

inductive ThrAct
  | base (a : Act)
  | sfoo
  | owner

/-- `OsThread()` has run, `Device(cred, proc)` is about to. -/
def Thr.init_ (garbage : Int) (cred : CString) (proc : Option CString) : Thr :=
  ⟨Sys.init cred proc, garbage, false, false, -1, .absent, .device, []⟩

def isStarted : Act → Bool
  | .script (.started ok) => ok
  | _ => false

/-- `start_thread`, as far as it is not in the machine. -/
def Thr.start_thread (s : Thr) : Thr :=
  { s with
    init := 0
    hthread := true
    sfoo := .entered
    calls := s.calls ++ [.attr_init, .create, .attr_destroy] }

def sfooStep (s : Thr) : Option Thr :=
  match s.sfoo with
  | .entered => some { s with stopped := 0, sfoo := .running }
  | .running =>
    match s.sys.io with
    | .ended => some { s with stopped := 1, sfoo := .returned }
    | _ => none
  | _ => none

/-- `~OsThread`, with `stop_thread` and `t_join`. -/
def ownerStep (s : Thr) : Option Thr :=
  match s.own with
  | .device =>
    match s.sys.script with
    | .destroyed => some { s with own := if s.stopped = 0 then .stopping else .detaching }
    | _ => none
  | .stopping => some { s with own := .rechecking }
  | .rechecking =>
    if s.stopped = 0 ∧ s.joined = false then some { s with joined := true, own := .joining }
    else some { s with own := .detaching }
  -- `pthread_join` waits for `SFoo`
  | .joining =>
    if s.sfoo = .returned then some { s with own := .detaching, calls := s.calls ++ [.join] }
    else none
  | .detaching =>
    some { s with
      own := .freed
      hthread := false
      calls := s.calls ++ (if s.joined && s.hthread then [.detach] else []) ++
        (if s.init = 0 then [.attr_destroy] else []) }
  | .freed => none

def step (regex : Regex) (s : Thr) : ThrAct → Option Thr
  | .base (.io a) =>
    if s.sfoo = .running then
      (Machine.step regex s.sys (.io a)).map fun t => { s with sys := t }
    else none
  | .base (.script a) =>
    if s.own = .device then
      (Machine.step regex s.sys (.script a)).map fun t =>
        if isStarted (.script a) then Thr.start_thread { s with sys := t } else { s with sys := t }
    else none
  | .sfoo => sfooStep s
  | .owner => ownerStep s

/-- A step of the IO thread that touches the object when its owner has destroyed
that part of it: the members of `Device`, or those of `OsThread`. -/
def Late (s : Thr) : ThrAct → Prop
  | .base (.io _) => s.sys.script = .destroyed
  | .sfoo => s.own = .freed
  | _ => False

/-! ## The machine below -/

/-- `_ended` is set by a thread that does nothing more. -/
structure Ends (s : Sys) : Prop where
  unstarted : Unstarted s
  ended : s.dev.ended = true → s.io = .ended ∨ s.io = .gone
  gone : s.io = .gone → s.script = .gone
  destroyed : s.script = .destroyed → s.io = .ended

theorem Ends.init (cred : CString) (proc : Option CString) : Ends (Sys.init cred proc) := by
  refine ⟨fun _ => rfl, ?_, ?_, ?_⟩
  · intro hended; cases hended
  · intro hio; cases hio
  · intro hscript; cases hscript

/-- A thread that can move has not ended. -/
theorem Ends.unended {regex : Regex} {s : Sys} (h : Ends s) {a : IoAct} {d : Dev} {pc : IoPc}
    (hmove : IoMove regex s.dev s.io a d pc) :
    s.dev.ended = false ∧ s.script ≠ .destroyed := by
  have hio : s.io ≠ .ended ∧ s.io ≠ .gone := by
    obtain ⟨dev, sc, io⟩ := s
    cases hmove <;> exact ⟨nofun, nofun⟩
  refine ⟨Bool.eq_false_iff.mpr fun hended => ?_, fun hscript => hio.1 (h.destroyed hscript)⟩
  rcases h.ended hended with hend | hgone
  · exact hio.1 hend
  · exact hio.2 hgone

theorem IoMove.ended {regex : Regex} {d d' : Dev} {pc pc' : IoPc} {a : IoAct}
    (h : IoMove regex d pc a d' pc') :
    (d'.ended = d.ended ∨ pc' = .ended) ∧ pc' ≠ .gone := by
  cases h with
  | callback pc pc' a d' hcall => exact ⟨.inl (callStep_effect hcall).ended, nofun⟩
  | left d' hd => rcases hd with rfl | rfl <;> exact ⟨.inl rfl, nofun⟩
  | stored shot pc hpc => rcases hpc with rfl | rfl <;> exact ⟨.inl rfl, nofun⟩
  | ended => exact ⟨.inr rfl, nofun⟩
  | _ => exact ⟨.inl rfl, nofun⟩

theorem ScriptMove.ended {regex : Regex} {d d' : Dev} {io io' : IoPc} {pc pc' : ScriptPc}
    {a : ScriptAct} (h : ScriptMove regex d io pc a d' pc' io') : d'.ended = d.ended := by
  cases h with
  | call pc pc' a d' hcall => exact (callStep_effect hcall).ended
  | _ => rfl

/-- The script thread starts the IO thread, or leaves it where it is, or the
process goes. -/
theorem ScriptMove.io {regex : Regex} {d d' : Dev} {io io' : IoPc} {pc pc' : ScriptPc}
    {a : ScriptAct} (h : ScriptMove regex d io pc a d' pc' io') :
    isStarted (.script a) = true ∧ pc = .starting ∧ io' = .opening ∨
      isStarted (.script a) = false ∧ (io' = io ∨ io' = .gone ∧ pc' = .gone) := by
  cases h with
  | started => exact .inl ⟨rfl, rfl, rfl⟩
  | unstarted | nullClose => exact .inr ⟨rfl, .inr ⟨rfl, rfl⟩⟩
  | _ => exact .inr ⟨rfl, .inl rfl⟩

theorem Ends.step {regex : Regex} {s t : Sys} {a : Act} (h : Ends s)
    (hstep : Machine.step regex s a = some t) : Ends t := by
  have hunstarted := step_unstarted h.unstarted hstep
  suffices hrest : (t.dev.ended = true → t.io = .ended ∨ t.io = .gone) ∧
      (t.io = .gone → t.script = .gone) ∧ (t.script = .destroyed → t.io = .ended) from
    ⟨hunstarted, hrest.1, hrest.2.1, hrest.2.2⟩
  refine step_induct (Q := fun t => (t.dev.ended = true → t.io = .ended ∨ t.io = .gone) ∧
    (t.io = .gone → t.script = .gone) ∧ (t.script = .destroyed → t.io = .ended)) ?_ ?_ ?_ hstep
  · exact fun _ _ => ⟨fun _ => .inr rfl, fun _ => rfl, nofun⟩
  · intro b d pc _ hmove
    obtain ⟨hended, hscript⟩ := h.unended hmove
    obtain ⟨hdev, hpc⟩ := IoMove.ended hmove
    refine ⟨fun htrue => ?_, fun hgone => absurd hgone hpc, fun hdes => absurd hdes hscript⟩
    rcases hdev with hsame | hend
    · rw [hsame, hended] at htrue; cases htrue
    · exact .inl hend
  · intro b d pc io _ hmove
    have hsame := ScriptMove.ended hmove
    obtain ⟨dev, sc, io₀⟩ := s
    have hlive : sc ≠ .gone → io₀ ≠ .gone := fun hsc hio => hsc (h.gone hio)
    cases hmove with
    | started =>
      obtain rfl : io₀ = .absent := h.unstarted rfl
      refine ⟨fun htrue => ?_, nofun, nofun⟩
      rcases h.ended htrue with hend | hend <;> cases hend
    | unstarted | nullClose => exact ⟨fun _ => .inr rfl, fun _ => rfl, nofun⟩
    | destroyed hend =>
      have hio : io₀ = .ended := (h.ended hend).resolve_right (hlive nofun)
      exact ⟨fun _ => .inl hio, fun hgone => absurd hgone (hlive nofun), fun _ => hio⟩
    | _ =>
      exact ⟨fun htrue => h.ended (hsame ▸ htrue), fun hgone => absurd hgone (hlive nofun), nofun⟩

/-! ## The invariant -/

/-- What `start_thread` has called. -/
def SFoo.begun : SFoo → List Pthread
  | .absent => []
  | _ => [.attr_init, .create, .attr_destroy]

/-- What the destructor has done so far, and what it relies on. -/
def Destroys (s : Thr) : Prop :=
  match s.own with
  | .device | .stopping | .rechecking => s.joined = false ∧ s.calls = s.sfoo.begun
  | .joining => s.joined = true ∧ s.calls = s.sfoo.begun
  | .detaching => s.sfoo = .returned ∧ s.calls = s.sfoo.begun ++ (if s.joined then [.join] else [])
  | .freed =>
    s.sfoo = .returned ∧
      s.calls = s.sfoo.begun ++ (if s.joined then [.join, .detach] else []) ++ [.attr_destroy]

structure Inv (s : Thr) : Prop where
  sys : Ends s.sys
  absent : s.sfoo = .absent → s.sys.io = .absent ∨ s.sys.io = .gone
  launched : s.sfoo ≠ .absent → s.sys.io ≠ .absent
  entered : s.sfoo = .entered → s.sys.io = .opening ∨ s.sys.io = .gone
  running : s.sfoo = .running → s.stopped = 0
  returned : s.sfoo = .returned → s.stopped = 1 ∧ (s.sys.io = .ended ∨ s.sys.io = .gone)
  handle : s.sfoo ≠ .absent → s.init = 0 ∧ (s.own ≠ .freed → s.hthread = true)
  own : s.own ≠ .device → s.sys.script = .destroyed
  destroys : Destroys s

theorem Inv.init (garbage : Int) (cred : CString) (proc : Option CString) :
    Inv (.init_ garbage cred proc) := by
  refine ⟨.init cred proc, fun _ => .inl rfl, fun h => absurd rfl h, nofun, nofun, nofun,
    fun h => absurd rfl h, fun h => absurd rfl h, rfl, rfl⟩

/-- Once `~Device` is over the IO thread is in the tail of `SFoo`, or through. -/
theorem Inv.tail {s : Thr} (h : Inv s) (hscript : s.sys.script = .destroyed) :
    s.sfoo = .running ∨ s.sfoo = .returned := by
  have hio := h.sys.destroyed hscript
  cases hsfoo : s.sfoo with
  | absent => rcases h.absent hsfoo with hx | hx <;> rw [hio] at hx <;> cases hx
  | entered => rcases h.entered hsfoo with hx | hx <;> rw [hio] at hx <;> cases hx
  | running => exact .inl rfl
  | returned => exact .inr rfl

/-- `_stopped` tells which. -/
theorem Inv.tail_iff {s : Thr} (h : Inv s) (hscript : s.sys.script = .destroyed) :
    s.stopped = 0 ↔ s.sfoo = .running := by
  rcases h.tail hscript with hrun | hret
  · exact iff_of_true (h.running hrun) hrun
  · have hone := (h.returned hret).1
    rw [hone, hret]
    exact iff_of_false nofun nofun

theorem Inv.sfoo_step {s t : Thr} (h : Inv s) (hstep : sfooStep s = some t) : Inv t := by
  obtain ⟨sys, stopped, joined, hthread, init, sfoo, own, calls⟩ := s
  cases sfoo with
  | absent | returned => cases hstep
  | entered =>
    cases hstep
    have hio : sys.io = .opening ∨ sys.io = .gone := h.entered rfl
    have hown : own = .device := by
      by_contra hne
      have hend : sys.io = .ended := h.sys.destroyed (h.own hne)
      rcases hio with hx | hx <;> rw [hend] at hx <;> cases hx
    subst hown
    exact ⟨h.sys, nofun, fun _ => h.launched nofun, nofun, fun _ => rfl, nofun,
      fun _ => h.handle nofun, h.own, h.destroys⟩
  | running =>
    simp only [sfooStep] at hstep
    split at hstep
    · next hio =>
      cases hstep
      refine ⟨h.sys, nofun, fun _ => h.launched nofun, nofun, nofun, fun _ => ⟨rfl, .inl hio⟩,
        fun _ => h.handle nofun, h.own, ?_⟩
      have hdes := h.destroys
      cases own with
      | detaching | freed => exact ⟨rfl, hdes.2⟩
      | _ => exact hdes
    · cases hstep

/-- The destructor moves on; the thread stays where it is. -/
theorem Inv.owned {s : Thr} (h : Inv s) (hscript : s.sys.script = .destroyed)
    (hown : s.own ≠ .freed) {joined : Bool} {own : Own} {calls : List Pthread}
    (hdes : Destroys { s with joined := joined, own := own, calls := calls }) :
    Inv { s with joined := joined, own := own, calls := calls } :=
  ⟨h.sys, h.absent, h.launched, h.entered, h.running, h.returned,
    fun hne => ⟨(h.handle hne).1, fun _ => (h.handle hne).2 hown⟩, fun _ => hscript, hdes⟩

theorem Inv.owner_step {s t : Thr} (h : Inv s) (hstep : ownerStep s = some t) : Inv t := by
  have hdes := h.destroys
  obtain ⟨sys, stopped, joined, hthread, init, sfoo, own, calls⟩ := s
  cases own with
  | device =>
    simp only [ownerStep] at hstep
    split at hstep
    · next hscript =>
      cases hstep
      obtain ⟨rfl, rfl⟩ : joined = false ∧ calls = sfoo.begun := hdes
      refine h.owned hscript nofun ?_
      by_cases hzero : stopped = 0
      · rw [if_pos hzero]; exact ⟨rfl, rfl⟩
      · rw [if_neg hzero]
        have hret := (h.tail hscript).resolve_left fun hrun =>
          hzero ((h.tail_iff hscript).mpr hrun)
        exact ⟨hret, (List.append_nil _).symm⟩
    · cases hstep
  | stopping =>
    cases hstep
    exact h.owned (h.own nofun) nofun hdes
  | rechecking =>
    have hscript : sys.script = .destroyed := h.own nofun
    obtain ⟨rfl, rfl⟩ : joined = false ∧ calls = sfoo.begun := hdes
    simp only [ownerStep] at hstep
    split at hstep <;> cases hstep
    · exact h.owned hscript nofun ⟨rfl, rfl⟩
    · next hzero =>
      have hret := (h.tail hscript).resolve_left fun hrun =>
        hzero ⟨(h.tail_iff hscript).mpr hrun, trivial⟩
      exact h.owned hscript nofun ⟨hret, (List.append_nil _).symm⟩
  | joining =>
    obtain ⟨rfl, rfl⟩ : joined = true ∧ calls = sfoo.begun := hdes
    simp only [ownerStep] at hstep
    split at hstep <;> cases hstep
    next hret => exact h.owned (h.own nofun) nofun ⟨hret, rfl⟩
  | detaching =>
    cases hstep
    obtain ⟨rfl, rfl⟩ : sfoo = .returned ∧
      calls = sfoo.begun ++ (if joined then [Pthread.join] else []) := hdes
    obtain ⟨rfl, hhandle⟩ : init = 0 ∧ _ := h.handle nofun
    obtain rfl : hthread = true := hhandle nofun
    refine ⟨h.sys, h.absent, h.launched, h.entered, h.running, h.returned,
      fun _ => ⟨rfl, fun hne => absurd rfl hne⟩, fun _ => h.own nofun, rfl, ?_⟩
    cases joined <;> rfl
  | freed => cases hstep

theorem Inv.base_io {regex : Regex} {s : Thr} {a : IoAct} {t : Sys} (h : Inv s)
    (hrun : s.sfoo = .running) (hstep : Machine.step regex s.sys (.io a) = some t) :
    Inv { s with sys := t } := by
  have hsys := h.sys.step hstep
  obtain ⟨r, hio, rfl⟩ := Option.map_eq_some_iff.mp hstep
  have hmove := ioStep_move hio
  obtain ⟨-, hscript⟩ := h.sys.unended hmove
  have hown : s.own = .device := by
    by_contra hne
    exact hscript (h.own hne)
  refine ⟨hsys, fun hx => ?_, fun _ hx => ?_, fun hx => ?_, fun _ => h.running hrun,
    fun hx => ?_, h.handle, fun hne => absurd hown hne, h.destroys⟩
  · rw [hrun] at hx; cases hx
  · rcases settle_cases ⟨r.1, s.sys.script, r.2⟩ with heq | ⟨-, hgone⟩
    · rw [heq] at hx; exact hmove.ran.2 hx
    · rw [hgone] at hx; cases hx
  · rw [hrun] at hx; cases hx
  · rw [hrun] at hx; cases hx

theorem Inv.base_script {regex : Regex} {s : Thr} {a : ScriptAct} {t : Sys} (h : Inv s)
    (hown : s.own = .device) (hstep : Machine.step regex s.sys (.script a) = some t) :
    Inv (if isStarted (.script a) then Thr.start_thread { s with sys := t }
      else { s with sys := t }) := by
  have hsys := h.sys.step hstep
  obtain ⟨r, hscript, hr⟩ := Option.map_eq_some_iff.mp hstep
  have hio : t.io = r.2.2 ∨ t.io = .gone := by
    rw [← hr]
    rcases settle_cases ⟨r.1, r.2.1, r.2.2⟩ with heq | ⟨-, hgone⟩
    · rw [heq]; exact .inl rfl
    · exact .inr hgone
  obtain ⟨sys, stopped, joined, hthread, init, sfoo, own, calls⟩ := s
  obtain rfl : own = .device := hown
  have hdes := h.destroys
  obtain ⟨rfl, rfl⟩ : joined = false ∧ calls = sfoo.begun := hdes
  rcases ScriptMove.io (scriptStep_move hscript) with ⟨hstart, hpc, hopening⟩ | ⟨hstart, hkeep⟩
  · have hearly : sys.io = .absent := h.sys.unstarted (by rw [show sys.script = _ from hpc]; rfl)
    obtain rfl : sfoo = .absent := by
      by_contra hne
      exact h.launched hne hearly
    rw [if_pos hstart]
    rw [hopening] at hio
    refine ⟨hsys, nofun, fun _ habsent => ?_, fun _ => hio, nofun, nofun,
      fun _ => ⟨rfl, fun _ => rfl⟩, fun hne => absurd rfl hne, rfl, rfl⟩
    rcases hio with hx | hx <;> rw [show t.io = _ from habsent] at hx <;> cases hx
  · have hsame : t.io = sys.io ∨ t.io = .gone := by
      rcases hio with hx | hx
      · rcases hkeep with hk | ⟨hk, -⟩
        · exact .inl (hx.trans hk)
        · exact .inr (hx.trans hk)
      · exact .inr hx
    have hmoved : ∀ pc, sys.io = pc ∨ sys.io = .gone → t.io = pc ∨ t.io = .gone := by
      intro pc hpc
      rcases hsame with hx | hx
      · rwa [hx]
      · exact .inr hx
    rw [if_neg (Bool.eq_false_iff.mp hstart)]
    refine ⟨hsys, fun hx => hmoved _ (h.absent hx), fun hne habsent => ?_,
      fun hx => hmoved _ (h.entered hx), h.running,
      fun hx => ⟨(h.returned hx).1, hmoved _ (h.returned hx).2⟩, h.handle,
      fun hne => absurd rfl hne, rfl, rfl⟩
    rcases hsame with hx | hx
    · exact h.launched hne (hx ▸ habsent)
    · rw [show t.io = _ from habsent] at hx; cases hx

/-- **One step.** -/
theorem step_inv {regex : Regex} {s t : Thr} {a : ThrAct} (h : Inv s)
    (hstep : step regex s a = some t) : Inv t := by
  cases a with
  | sfoo => exact h.sfoo_step hstep
  | owner => exact h.owner_step hstep
  | base b =>
    cases b with
    | io b =>
      simp only [step] at hstep
      split at hstep
      · next hrun =>
        obtain ⟨u, hu, rfl⟩ := Option.map_eq_some_iff.mp hstep
        exact h.base_io hrun hu
      · cases hstep
    | script b =>
      simp only [step] at hstep
      split at hstep
      · next hown =>
        obtain ⟨u, hu, rfl⟩ := Option.map_eq_some_iff.mp hstep
        exact h.base_script hown hu
      · cases hstep

/-! ## Every run -/

theorem run_inv {regex : Regex} {garbage : Int} {cred : CString} {proc : Option CString}
    {acts : List ThrAct} {s : Thr}
    (h : run (step regex) (.init_ garbage cred proc) acts = some s) : Inv s :=
  run_invariant (fun _ _ _ hs hst => step_inv hs hst) (.init garbage cred proc) h

/-- **The thread never touches what is destroyed**, whatever `_stopped` held at
first and however the two threads interleave. -/
theorem never_late (regex : Regex) (garbage : Int) (cred : CString) (proc : Option CString)
    (acts : List ThrAct) (s t : Thr) (a : ThrAct)
    (h : run (step regex) (.init_ garbage cred proc) acts = some s)
    (hstep : step regex s a = some t) : ¬ Late s a := by
  have hinv := run_inv h
  intro hlate
  cases a with
  | owner => exact hlate
  | sfoo =>
    have hdes := hinv.destroys
    obtain ⟨sys, stopped, joined, hthread, init, sfoo, own, calls⟩ := s
    obtain rfl : own = .freed := hlate
    obtain ⟨rfl, -⟩ : sfoo = .returned ∧ _ := hdes
    cases hstep
  | base b =>
    cases b with
    | script b => exact hlate
    | io b =>
      simp only [step] at hstep
      split at hstep
      · obtain ⟨u, hu, -⟩ := Option.map_eq_some_iff.mp hstep
        obtain ⟨r, hio, -⟩ := Option.map_eq_some_iff.mp hu
        exact (hinv.sys.unended (ioStep_move hio)).2 hlate
      · cases hstep

/-- The device comes up and is destroyed; `thread_main` sets `_ended`. -/
def upAndDown : List ThrAct :=
  [.base (.script .step), .base (.script (.started true)), .sfoo, .base (.io (.opened 0 true)),
    .base (.io .step), .base (.script .step), .base (.script .destroy), .base (.script .step),
    .base (.script .step), .base (.io .step), .base (.io .step), .base (.io .step),
    .base (.io .step), .base (.script .step)]

/-- The thread leaves while the owner sleeps in `stop_thread`. -/
theorem never_late_upAndDown :
    ∃ s t, run (step fun _ => none) (.init_ 7 ttyCred none) (upAndDown ++ [.owner, .owner]) =
        some s ∧ step (fun _ => none) s .sfoo = some t ∧ ¬ Late s .sfoo :=
  ⟨_, _, rfl, rfl, never_late (fun _ => none) 7 ttyCred none (upAndDown ++ [.owner, .owner])
    _ _ .sfoo rfl rfl⟩

/-! ## The end of the object -/

def Own.rank : Own → Nat
  | .device => 5
  | .stopping => 4
  | .rechecking => 3
  | .joining => 2
  | .detaching => 1
  | .freed => 0

def SFoo.rank : SFoo → Nat
  | .running => 1
  | _ => 0

end Autocom.OsThread
