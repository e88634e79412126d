import Autocom.OsThread

/-! # How calls and threads come to their end

`exit()` and a signal set the program's `__alive` to false, `~Device` sets
`_alive`. The first ends every loop of the calls, whatever the line and the hook
do; the second ends the loop of `thread_main` and nothing else. Both are counted
in steps of the thread in question, so the bounds hold however it is delayed. -/
namespace Autocom.Exit
open Autocom Autocom.Lib.Lts Autocom.Machine
open Autocom.Expect (Regex Turn)

/-! ## The turns a call still takes when `__alive` is false -/

def Tail.rem : Tail → Nat
  | .done => 0
  | .gets _ _ => 1
  | .read => 3

def Next.rem : Next → Nat
  | .done => 0
  | .any _ k => 2 + Tail.rem k

def rem : CallPc → Nat
  | .ready _ | .aborted => 0
  | .completing k => 1 + Next.rem k
  | .any _ _ k => 2 + Tail.rem k
  | .anyEnd k => 1 + Tail.rem k
  | .gets _ | .readMake _ | .binwaitt .. => 1
  | .readTest _ => 3
  | .readLen => 2
  | .strwaitt _ _ _ fetch | .strstr _ _ fetch => if fetch then 2 else 1

theorem Tail.rem_le (k : Tail) : Tail.rem k ≤ 3 := by
  cases k <;> exact Nat.le_of_ble_eq_true rfl

theorem rem_le (pc : CallPc) : rem pc ≤ 6 := by
  cases pc with
  | completing k =>
    cases k with
    | done => exact Nat.le_of_ble_eq_true rfl
    | any to_ k => exact Nat.add_le_add_left (Nat.add_le_add_left (Tail.rem_le k) 2) 1
  | any expire infinite k => exact (Nat.add_le_add_left (Tail.rem_le k) 2).trans (Nat.le_succ 5)
  | anyEnd k =>
    exact (Nat.add_le_add_left (Tail.rem_le k) 1).trans (Nat.le_of_ble_eq_true rfl)
  | strwaitt _ _ _ fetch | strstr _ _ fetch => cases fetch <;> exact Nat.le_of_ble_eq_true rfl
  | _ => exact Nat.le_of_ble_eq_true rfl

theorem go_dead (t : Turn) (expire : Int) : t.go false expire = false := by
  simp [Turn.go]

/-- A turn is possible, and brings the call nearer to its end. -/
theorem turnCall_rem (regex : Regex) {d : Dev} (t : Turn) {pc : CallPc}
    (hexit : d.progAlive = false) (hpc : rem pc ≠ 0) :
    ∃ d' pc', turnCall regex d t pc = some (d', pc') ∧ rem pc' < rem pc := by
  cases pc with
  | ready | aborted => exact absurd rfl hpc
  | completing k =>
    cases k with
    | done => exact ⟨d, .ready (.int 0), by simp [turnCall, hexit], Nat.lt_succ_self 0⟩
    | any to_ k =>
      simp only [turnCall, hexit, and_false, Bool.false_eq_true, if_false]
      exact ⟨_, _, rfl, Nat.lt_one_add_iff.mpr le_rfl⟩
  | any expire infinite k =>
    refine ⟨d, .anyEnd k, by simp [turnCall, hexit], ?_⟩
    exact Nat.add_lt_add_right Nat.one_lt_two _
  | anyEnd k =>
    cases k with
    | done => exact ⟨_, _, rfl, Nat.lt_succ_self 0⟩
    | gets mark held => exact ⟨_, _, rfl, Nat.lt_succ_self 1⟩
    | read => exact ⟨_, _, rfl, Nat.lt_succ_self 3⟩
  | gets query =>
    cases query with
    | none => exact ⟨_, _, rfl, Nat.lt_succ_self 0⟩
    | some q => exact ⟨_, _, rfl, Nat.lt_succ_self 0⟩
  | readTest max =>
    refine ⟨_, _, rfl, ?_⟩
    split
    · exact Nat.lt_succ_self 2
    · exact Nat.one_lt_succ_succ 1
  | readLen => exact ⟨_, _, rfl, Nat.lt_succ_self 1⟩
  | readMake max =>
    by_cases hzero : max = 0
    · exact ⟨d, .ready (.array []), by simp [turnCall, hzero], Nat.lt_succ_self 0⟩
    · by_cases hneg : max < 0
      · exact ⟨d, .aborted, by simp [turnCall, hzero, hneg], Nat.lt_succ_self 0⟩
      · simp only [turnCall, hzero, hneg, if_false]
        exact ⟨_, _, rfl, Nat.lt_succ_self 0⟩
  | strwaitt expr expire infinite fetch =>
    cases fetch with
    | false =>
      exact ⟨d, .ready (.int 1), by simp [turnCall, hexit, go_dead], Nat.lt_succ_self 0⟩
    | true =>
      simp only [turnCall]
      split
      · exact ⟨_, _, rfl, Nat.two_pos⟩
      · exact ⟨_, _, rfl, Nat.one_lt_two⟩
      · exact ⟨_, _, rfl, Nat.two_pos⟩
  | strstr strings expire fetch =>
    cases fetch with
    | false =>
      exact ⟨d, .ready (.text d.strstrRet), by simp [turnCall, hexit, go_dead],
        Nat.lt_succ_self 0⟩
    | true =>
      simp only [turnCall]
      split
      · exact ⟨_, _, rfl, Nat.one_lt_two⟩
      · exact ⟨_, _, rfl, Nat.two_pos⟩
  | binwaitt needle sz expire infinite =>
    exact ⟨d, .ready (.int 1), by simp [turnCall, hexit, go_dead], Nat.lt_succ_self 0⟩

/-! ## The calls of a thread -/

/-- The thread that makes the calls. -/
inductive Thread
  | script
  | callback
  deriving DecidableEq

/-- Where a thread is inside its calls, when it makes any. -/
def Thread.pc : Thread → Sys → Option CallPc
  | .script, s =>
    match s.script with
    | .running pc => some pc
    | _ => none
  | .callback, s =>
    match s.io with
    | .notifying pc => some pc
    | _ => none

theorem pc_script {s : Sys} {pc : CallPc} :
    Thread.pc .script s = some pc ↔ s.script = .running pc := by
  obtain ⟨dev, sc, io⟩ := s
  cases sc <;> simp [Thread.pc]

theorem pc_callback {s : Sys} {pc : CallPc} :
    Thread.pc .callback s = some pc ↔ s.io = .notifying pc := by
  obtain ⟨dev, sc, io⟩ := s
  cases io <;> simp [Thread.pc]

def Thread.act : Thread → CallAct → Act
  | .script, a => .script (.act a)
  | .callback, a => .io (.callback a)

/-- The action is a turn of the thread inside a call. -/
def isTurn : Thread → Act → Bool
  | .script, .script (.act (.turn _)) => true
  | .callback, .io (.callback (.turn _)) => true
  | _, _ => false

/-- The action is the start of a call by the thread. -/
def isCall : Thread → Act → Bool
  | .script, .script (.act (.call _ _)) => true
  | .callback, .io (.callback (.call _ _)) => true
  | _, _ => false

def Thread.rem (th : Thread) (s : Sys) : Nat := ((th.pc s).map Exit.rem).getD 0

theorem rem_gone (th : Thread) (s : Sys) : th.rem { s with script := .gone, io := .gone } = 0 := by
  cases th <;> rfl

theorem callStep_rem {regex : Regex} {d d' : Dev} {pc pc' : CallPc} {a : CallAct}
    (hexit : d.progAlive = false) (h : callStep regex d pc a = some (d', pc')) :
    match a with
    | .turn _ => rem pc' < rem pc
    | .call _ _ => rem pc = 0 ∧ rem pc' ≤ 6 := by
  cases a with
  | turn t =>
    have hpc : rem pc ≠ 0 := by
      intro hzero
      cases pc with
      | ready | aborted => cases h
      | completing | any | anyEnd => simp [rem] at hzero
      | strwaitt _ _ _ fetch | strstr _ _ fetch => cases fetch <;> cases hzero
      | _ => cases hzero
    obtain ⟨d₁, pc₁, hturn, hlt⟩ := turnCall_rem regex t hexit hpc
    rw [show turnCall regex d t pc = some (d', pc') from h] at hturn
    cases hturn
    exact hlt
  | call c tick =>
    cases pc with
    | ready ret =>
      exact ⟨rfl, rem_le pc'⟩
    | _ => cases h

/-- **One step** costs its thread a turn, or gains it a call. -/
theorem step_rem {regex : Regex} (th : Thread) {s t : Sys} {a : Act}
    (hexit : s.dev.progAlive = false) (h : step regex s a = some t) :
    (isTurn th a).toNat + th.rem t ≤ th.rem s + 6 * (isCall th a).toNat := by
  refine step_induct
    (Q := fun t => (isTurn th a).toNat + th.rem t ≤ th.rem s + 6 * (isCall th a).toNat)
    ?_ ?_ ?_ h
  · intro u hu
    rw [rem_gone]
    omega
  · intro b d pc ha hmove
    subst ha
    obtain ⟨dev, sc, io⟩ := s
    cases th with
    | script =>
      rw [show isTurn .script (.io b) = false from rfl,
        show isCall .script (.io b) = false from rfl]
      exact (Nat.zero_add _).le
    | callback =>
      cases hmove with
      | callback pc pc' a d' hcall =>
        have hrem := callStep_rem hexit hcall
        cases a with
        | turn t => exact (Nat.one_add _).le.trans hrem
        | call c tick =>
          obtain ⟨hzero, hle⟩ := hrem
          exact (Nat.zero_add _).le.trans (hle.trans (Nat.le_add_left _ _))
      | stored shot pc hpc => rcases hpc with rfl | rfl <;> exact Nat.zero_le _
      | _ => exact Nat.zero_le _
  · intro b d pc io ha hmove
    subst ha
    obtain ⟨dev, sc, io₀⟩ := s
    cases th with
    | script =>
      cases hmove with
      | call pc pc' a d' hcall =>
        have hrem := callStep_rem hexit hcall
        cases a with
        | turn t => exact (Nat.one_add _).le.trans hrem
        | call c tick =>
          obtain ⟨hzero, hle⟩ := hrem
          exact (Nat.zero_add _).le.trans (hle.trans (Nat.le_add_left _ _))
      | _ => exact Nat.zero_le _
    | callback =>
      rw [show isTurn .callback (.script b) = false from rfl,
        show isCall .callback (.script b) = false from rfl]
      cases hmove with
      | started | unstarted | nullClose => exact Nat.zero_le _
      | _ => exact (Nat.zero_add _).le

/-- Nothing sets `__alive` again. -/
theorem step_exit {regex : Regex} {s t : Sys} {a : Act} (hexit : s.dev.progAlive = false)
    (h : step regex s a = some t) : t.dev.progAlive = false := by
  have hcalled : ∀ {d' : Dev} {pc pc' : CallPc} {a : CallAct},
      callStep regex s.dev pc a = some (d', pc') → d'.progAlive = false := by
    intro d' pc pc' a hcall
    refine Bool.eq_false_iff.mpr fun htrue => ?_
    rw [(callStep_effect hcall).progAlive htrue] at hexit
    cases hexit
  refine step_induct (Q := fun t => t.dev.progAlive = false) (fun _ hu => hu) ?_ ?_ h
  · intro b d pc _ hmove
    obtain ⟨dev, sc, io⟩ := s
    cases hmove with
    | callback pc pc' a d' hcall => exact hcalled hcall
    | left d' hd => rcases hd with rfl | rfl <;> exact hexit
    | _ => exact hexit
  · intro b d pc io _ hmove
    obtain ⟨dev, sc, io₀⟩ := s
    cases hmove with
    | call pc pc' a d' hcall => exact hcalled hcall
    | _ => exact hexit

/-- No state that is reached is inside an aborted call of the script. -/
theorem step_script_ne {regex : Regex} {s t : Sys} {a : Act} (h : step regex s a = some t) :
    t.script ≠ .running .aborted := by
  have hsettle : ∀ u : Sys, u.settle.script ≠ .running .aborted := by
    intro u
    unfold Sys.settle
    split
    · nofun
    · nofun
    · next hsc _ => exact hsc
  cases a with
  | io b => obtain ⟨r, -, rfl⟩ := Option.map_eq_some_iff.mp h; exact hsettle _
  | script b => obtain ⟨r, -, rfl⟩ := Option.map_eq_some_iff.mp h; exact hsettle _

theorem step_unaborted {regex : Regex} {s t : Sys} {a : Act} (h : step regex s a = some t)
    (th : Thread) : th.pc t ≠ some .aborted := by
  cases th with
  | script => exact fun hpc => step_script_ne h (pc_script.mp hpc)
  | callback => exact fun hpc => step_io_ne h (pc_callback.mp hpc)

/-- Inside a call a turn of the thread is possible. -/
theorem turn_enabled {regex : Regex} {s : Sys} {th : Thread} {pc : CallPc}
    (hexit : s.dev.progAlive = false) (hpc : th.pc s = some pc) (hrem : rem pc ≠ 0) (t : Turn) :
    ∃ u, step regex s (th.act (.turn t)) = some u := by
  obtain ⟨d', pc', hturn, -⟩ := turnCall_rem regex t hexit hrem
  obtain ⟨dev, sc, io⟩ := s
  cases th with
  | script =>
    obtain rfl : sc = .running pc := pc_script.mp hpc
    simp only [Thread.act, step, scriptStep, callStep, hturn, Option.map_some]
    exact ⟨_, rfl⟩
  | callback =>
    obtain rfl : io = .notifying pc := pc_callback.mp hpc
    simp only [Thread.act, step, ioStep, callStep, hturn, Option.map_some]
    exact ⟨_, rfl⟩

/-- **`exit` ends the calls**: from then on a thread takes six turns at most for
each call that it is in or starts, however long the line stays silent, whatever
the hook says and whatever the other thread does; and inside a call its next turn
is always possible. -/
theorem exit_ends_calls (regex : Regex) (cred : CString) (proc : Option CString)
    (acts more : List Act) (s t : Sys) (th : Thread)
    (h : run (step regex) (Sys.init cred proc) acts = some s)
    (hexit : s.dev.progAlive = false) (hmore : run (step regex) s more = some t) :
    more.countP (isTurn th) ≤ 6 * (more.countP (isCall th) + 1) ∧
      ∀ pc, th.pc t = some pc → (∀ ret, pc ≠ .ready ret) →
        ∀ turn, ∃ u, step regex t (th.act (.turn turn)) = some u := by
  have hclean : ∀ th : Thread, th.pc t ≠ some .aborted :=
    run_invariant (I := fun s => ∀ th : Thread, th.pc s ≠ some .aborted)
      (fun _ _ _ _ hst => step_unaborted hst) (by intro th hpc; cases th <;> cases hpc)
      (run_append h hmore)
  obtain ⟨hdead, hle⟩ := run_cost_le (fun s : Sys => s.dev.progAlive = false) th.rem
    (fun a => 1 * (isTurn th a).toNat) (fun a => 6 * (isCall th a).toNat)
    (fun _ _ _ hs hst => ⟨step_exit hs hst, by rw [Nat.one_mul]; exact step_rem th hs hst⟩)
    hexit hmore
  rw [total_countP, total_countP] at hle
  have hrem : th.rem s ≤ 6 := by
    unfold Thread.rem
    cases th.pc s with
    | none => exact Nat.zero_le _
    | some pc => exact rem_le pc
  refine ⟨by omega, fun pc hpc hready turn => turn_enabled hdead hpc ?_ turn⟩
  intro hzero
  cases pc with
  | ready ret => exact hready ret rfl
  | aborted => exact hclean th hpc
  | completing | any | anyEnd => simp [rem] at hzero
  | strwaitt _ _ _ fetch | strstr _ _ fetch => cases fetch <;> cases hzero
  | _ => cases hzero

/-- `exit()`, and then `puts("c")`, which does not wait for its byte to go. -/
def exitThenPuts : List Act :=
  [.script (.act (.call (.puts charC) 0)), .script (.act (.turn ⟨0, 0, 0⟩))]

theorem exit_ends_calls_puts :
    ∃ s t, run (step fun _ => none) (Sys.init ttyCred none)
        (connect ++ [.script (.act (.call .exit 0))]) = some s ∧ s.dev.progAlive = false ∧
      run (step fun _ => none) s exitThenPuts = some t ∧
      exitThenPuts.countP (isTurn .script) ≤ 6 * (exitThenPuts.countP (isCall .script) + 1) :=
  ⟨_, _, rfl, rfl, rfl, (exit_ends_calls (fun _ => none) ttyCred none
    (connect ++ [.script (.act (.call .exit 0))]) exitThenPuts _ _ .script rfl rfl rfl).1⟩

/-! ## The loop of `thread_main` -/

/-- The steps that the IO thread still takes when `_alive` is false, apart from
the writes of a `sendTo` and the calls of a callback. -/
def ioRem : IoPc → Nat
  | .absent | .ended | .gone => 0
  | .ending => 1
  | .leaving => 2
  | .closing => 3
  | .loop => 4
  | .entering | .notifying _ => 5
  | .opening | .storing _ => 6
  | .receiving => 7
  | .sending _ _ => 8
  | .calling _ => 9
  | .fetch => 10
  | .poll => 11

theorem ioRem_le (pc : IoPc) : ioRem pc ≤ 11 := by
  cases pc <;> exact Nat.le_of_ble_eq_true rfl

def isIoStep : Act → Bool
  | .io (.wrote _) | .io (.callback _) => false
  | .io _ => true
  | .script _ => false

/-- The destructor has set `_alive`. -/
def stopping : ScriptPc → Bool
  | .dtorWait | .destroyed | .gone => true
  | _ => false

structure Stopped (s : Sys) : Prop where
  script : stopping s.script = true
  alive : s.dev.alive = false

/-- **One step** after `_alive = false`. -/
theorem Stopped.step {regex : Regex} {s t : Sys} {a : Act} (h : Stopped s)
    (hstep : Machine.step regex s a = some t) :
    Stopped t ∧ (isIoStep a).toNat + ioRem t.io ≤ ioRem s.io := by
  refine step_induct
    (Q := fun t => Stopped t ∧ (isIoStep a).toNat + ioRem t.io ≤ ioRem s.io) ?_ ?_ ?_ hstep
  · intro u hu
    refine ⟨⟨rfl, hu.1.alive⟩, le_trans ?_ hu.2⟩
    exact Nat.add_le_add_left (Nat.zero_le _) _
  · intro b d pc ha hmove
    subst ha
    obtain ⟨dev, sc, io⟩ := s
    have hscript : stopping sc = true := h.script
    have halive : dev.alive = false := h.alive
    cases hmove with
    | again htrue => rw [show dev.alive = true from htrue] at halive; cases halive
    | callback pc pc' a d' hcall =>
      exact ⟨⟨hscript, (callStep_effect hcall).alive.trans halive⟩, le_rfl⟩
    | left d' hd => rcases hd with rfl | rfl <;> exact ⟨⟨hscript, halive⟩, le_rfl⟩
    | stored shot pc hpc =>
      rcases hpc with rfl | rfl
      · exact ⟨⟨hscript, halive⟩, Nat.le_succ 5⟩
      · exact ⟨⟨hscript, halive⟩, le_rfl⟩
    | wrote | enter | stop | pending | fetch | sendTo | sentAll | timedOut | received | notified
      | closed | ended => exact ⟨⟨hscript, halive⟩, Nat.le_of_ble_eq_true rfl⟩
    | opened | refused | silent | unsendable | sendFailed | lost | nothing =>
      exact ⟨⟨hscript, halive⟩, Nat.le_of_ble_eq_true rfl⟩
  · intro b d pc io ha hmove
    subst ha
    obtain ⟨dev, sc, io₀⟩ := s
    have hscript : stopping sc = true := h.script
    cases hmove with
    | destroyed | unended => exact ⟨⟨rfl, h.alive⟩, (Nat.zero_add _).le⟩
    | _ => cases hscript

/-- The IO thread exists while the destructor waits for it, and has set `_ended`
when it is through. -/
structure Dtor (s : Sys) : Prop where
  unstarted : Unstarted s
  fresh : ∀ cred, s.script = .constructing cred → s.dev.pc = none
  comm : s.script.early = false → s.dev.pc ≠ none → s.io ≠ .absent
  dtor : s.script = .dtorStop ∨ s.script = .dtorWait → s.io ≠ .absent
  alive : s.script = .dtorWait → s.dev.alive = false
  ended : s.io = .ended → s.dev.ended = true

/-- Neither before `start_thread` nor in the destructor. -/
theorem Dtor.late {d : Dev} {sc : ScriptPc} {io : IoPc} (hearly : sc.early = false)
    (hstop : sc ≠ .dtorStop) (hwait : sc ≠ .dtorWait) (hcomm : d.pc ≠ none → io ≠ .absent)
    (hended : io = .ended → d.ended = true) : Dtor ⟨d, sc, io⟩ := by
  refine ⟨unstarted_of_late hearly, fun cred hcred => ?_, fun _ => hcomm, fun hdtor => ?_,
    fun hsc => absurd hsc hwait, hended⟩
  · obtain rfl : sc = .constructing cred := hcred
    cases hearly
  · exact absurd hdtor (not_or.mpr ⟨hstop, hwait⟩)

theorem Dtor.absent {d : Dev} {sc : ScriptPc} (hearly : sc.early = true)
    (hfresh : ∀ cred, sc = .constructing cred → d.pc = none) : Dtor ⟨d, sc, .absent⟩ := by
  refine ⟨fun _ => rfl, hfresh, fun hlate => ?_, fun hdtor => ?_, fun hwait => ?_, nofun⟩
  · rw [show sc.early = false from hlate] at hearly; cases hearly
  · rcases hdtor with hsc | hsc <;> (obtain rfl : sc = _ := hsc) <;> cases hearly
  · obtain rfl : sc = .dtorWait := hwait
    cases hearly

/-- A state in which the IO thread has moved to `pc`. -/
theorem Dtor.io_step {s : Sys} (h : Dtor s) {d : Dev} {pc : IoPc} (hrun : s.io ≠ .absent)
    (hpc : pc ≠ .absent) (halive : d.alive = s.dev.alive)
    (hended : pc = .ended → d.ended = true) : Dtor ⟨d, s.script, pc⟩ := by
  refine ⟨fun hearly => absurd (h.unstarted hearly) hrun, fun cred hcred => ?_, fun _ _ => hpc,
    fun _ => hpc, fun hwait => halive.trans (h.alive hwait), hended⟩
  exact absurd (h.unstarted (by rw [show s.script = _ from hcred]; rfl)) hrun

theorem Dtor.step {regex : Regex} {s t : Sys} {a : Act} (h : Dtor s)
    (hstep : Machine.step regex s a = some t) : Dtor t := by
  refine step_induct (Q := Dtor) ?_ ?_ ?_ hstep
  · exact fun u _ => .late rfl nofun nofun (fun _ => nofun) nofun
  · intro b d pc _ hmove
    obtain ⟨hrun, hpc⟩ := hmove.ran
    obtain ⟨dev, sc, io⟩ := s
    cases hmove with
    | callback pc pc' a d' hcall => exact h.io_step hrun hpc (callStep_effect hcall).alive nofun
    | left d' hd => rcases hd with rfl | rfl <;> exact h.io_step hrun hpc rfl nofun
    | stored shot pc hpc' => rcases hpc' with rfl | rfl <;> exact h.io_step hrun hpc rfl nofun
    | ended => exact h.io_step hrun hpc rfl fun _ => rfl
    | _ => exact h.io_step hrun hpc rfl nofun
  · intro b d pc io _ hmove
    obtain ⟨dev, sc, io₀⟩ := s
    cases hmove with
    | construct cred htty =>
      obtain rfl : io₀ = .absent := h.unstarted rfl
      exact .absent rfl nofun
    | portless cred htty =>
      exact .late rfl nofun nofun (fun hpc => absurd (h.fresh cred rfl) hpc) h.ended
    | started | unstarted | nullClose => exact .late rfl nofun nofun (fun _ => nofun) nofun
    | call pc pc' a d' hcall =>
      have heffect := callStep_effect hcall
      refine .late rfl nofun nofun (fun hpc => h.comm rfl ?_) fun hio => ?_
      · rw [← Option.isSome_iff_ne_none] at hpc ⊢
        rwa [← heffect.pc_some]
      · rw [heffect.ended]; exact h.ended hio
    | close hpc =>
      have hio : io₀ ≠ .absent := h.comm rfl hpc
      exact ⟨nofun, nofun, fun _ _ => hio, fun _ => hio, nofun, h.ended⟩
    | stop => exact ⟨nofun, nofun, h.comm, fun _ => h.dtor (.inl rfl), fun _ => rfl, h.ended⟩
    | unended => exact h
    | destroyed => exact .late rfl nofun nofun (fun hpc => absurd rfl hpc) h.ended
    | destroy | constructed | waiting => exact .late rfl nofun nofun (h.comm rfl) h.ended

/-- The IO thread waits for nothing but a callback. -/
theorem io_enabled (regex : Regex) {s : Sys} (habsent : s.io ≠ .absent) (hended : s.io ≠ .ended)
    (hgone : s.io ≠ .gone) (hcall : ∀ pc, s.io = .notifying pc → ∃ ret, pc = .ready ret) :
    ∃ a t, isIoStep a = true ∧ step regex s a = some t := by
  obtain ⟨dev, sc, io⟩ := s
  cases io with
  | absent => exact absurd rfl habsent
  | ended => exact absurd rfl hended
  | gone => exact absurd rfl hgone
  | opening => exact ⟨.io (.opened 0 true), _, rfl, rfl⟩
  | sending temp left =>
    by_cases hleft : left = []
    · subst hleft
      exact ⟨.io (.sent 0), _, rfl, rfl⟩
    · refine ⟨.io (.sent 1), (Sys.mk dev sc .receiving).settle, rfl, ?_⟩
      simp [step, ioStep, hleft]
  | receiving => exact ⟨.io (.received none), _, rfl, rfl⟩
  | notifying pc =>
    obtain ⟨ret, rfl⟩ := hcall pc rfl
    exact ⟨.io .step, _, rfl, rfl⟩
  | _ => exact ⟨.io .step, _, rfl, rfl⟩

/-- **The destructor's wait comes to an end**: while it waits the IO thread takes
eleven steps at most, the writes of one `sendTo` and the calls of one callback
apart; it is never stuck outside a callback, and when it is through the wait is over. -/
theorem destructor_wait_ends (regex : Regex) (cred : CString) (proc : Option CString)
    (acts more : List Act) (s t : Sys)
    (h : run (step regex) (Sys.init cred proc) acts = some s)
    (hwait : s.script = .dtorWait) (hmore : run (step regex) s more = some t) :
    more.countP isIoStep ≤ 11 ∧
      (t.script = .dtorWait → (∀ pc, t.io = .notifying pc → ∃ ret, pc = .ready ret) →
        t.dev.ended = true ∨ ∃ a u, isIoStep a = true ∧ step regex t a = some u) := by
  have hinit : Dtor (Sys.init cred proc) := .absent rfl fun _ _ => rfl
  have hs : Dtor s := run_invariant (fun _ _ _ hs hst => hs.step hst) hinit h
  have ht : Dtor t := run_invariant (fun _ _ _ hs hst => hs.step hst) hs hmore
  have hends : OsThread.Ends t := run_invariant (fun _ _ _ hs hst => hs.step hst)
    (.init cred proc) (run_append h hmore)
  obtain ⟨-, hle⟩ := run_cost_le Stopped (fun s => ioRem s.io)
    (fun a => 1 * (isIoStep a).toNat) (fun _ => 0)
    (fun _ _ _ hs hst => by rw [Nat.one_mul]; exact hs.step hst)
    ⟨by rw [hwait]; rfl, hs.alive hwait⟩ hmore
  rw [total_countP, total_const] at hle
  have hrem := ioRem_le s.io
  refine ⟨by omega, fun hscript hcall => ?_⟩
  by_cases hio : t.io = .ended
  · exact .inl (ht.ended hio)
  · refine .inr (io_enabled regex (ht.dtor (.inr hscript)) hio (fun hgone => ?_) hcall)
    have hsc := hends.gone hgone
    rw [hscript] at hsc
    cases hsc

/-- The IO thread is at the head of its loop when the destructor starts to wait. -/
def destroyUp : List Act :=
  connect ++ [.script .destroy, .script .step, .script .step]

theorem destructor_wait_ends_destroyUp :
    ∃ s t, run (step fun _ => none) (Sys.init ttyCred none) destroyUp = some s ∧
      run (step fun _ => none) s [.io .step, .io .step] = some t ∧
      [Act.io .step, .io .step].countP isIoStep ≤ 11 :=
  ⟨_, _, rfl, rfl, (destructor_wait_ends (fun _ => none) ttyCred none destroyUp
    [.io .step, .io .step] _ _ rfl rfl rfl).1⟩

end Autocom.Exit
