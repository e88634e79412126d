import Autocom.Lib.Lts
import Mathlib.Logic.Function.Basic

/-! # `umutex` and `AutoLock` on Windows

A critical section with a flag in front of it: `mlock` returns without entering
when `_inout` is set, and `munlock` without leaving when it is not. `AutoLock`
ignores both results. Each test, each assignment and each call of the section is
one step of one thread; there may be any number of threads. -/
namespace Autocom.Umutex
open Autocom.Lib.Lts

variable {ι : Type}

/-- A `CRITICAL_SECTION`: its owner, and how often the owner has entered. -/
structure CriticalSection (ι : Type) where
  owner : Option ι
  count : Nat

/-- Where a thread is inside `mlock` or `munlock`; `idle` is in neither. -/
inductive Pc
  | idle
  | entering
  | setting
  | clearing
  | leaving
  deriving DecidableEq

/-- `depth` counts the `AutoLock` objects of the thread, from the return of
`mlock` to the return of `munlock`. -/
structure Thread where
  pc : Pc
  depth : Nat
  deriving DecidableEq

structure State (ι : Type) where
  cs : CriticalSection ι
  inout : Bool
  threads : ι → Thread

/-- `AutoLock l(&m)` starts with `lockTest` and its destructor with `unlockTest`. -/
inductive Act
  | lockTest
  | enter
  | setInout
  | unlockTest
  | clearInout
  | leave
  deriving DecidableEq

namespace State

def init : State ι := ⟨⟨none, 0⟩, false, fun _ => ⟨.idle, 0⟩⟩

def set [DecidableEq ι] (s : State ι) (t : ι) (th : Thread) : State ι :=
  { s with threads := Function.update s.threads t th }

end State

section
variable [DecidableEq ι]

/-- Blocks while another thread owns the section. -/
def enterCriticalSection (cs : CriticalSection ι) (t : ι) : Option (CriticalSection ι) :=
  if cs.owner = none ∨ cs.owner = some t then some ⟨some t, cs.count + 1⟩ else none

/-- Undefined for a thread that does not own the section; the run ends there. -/
def leaveCriticalSection (cs : CriticalSection ι) (t : ι) : Option (CriticalSection ι) :=
  if cs.owner = some t then
    some (if cs.count = 1 then ⟨none, 0⟩ else ⟨some t, cs.count - 1⟩)
  else none

def step (s : State ι) (a : ι × Act) : Option (State ι) :=
  let t := a.1
  let th := s.threads t
  match a.2, th.pc with
  | .lockTest, .idle =>
    some (s.set t (if s.inout then ⟨.idle, th.depth + 1⟩ else ⟨.entering, th.depth⟩))
  | .enter, .entering =>
    (enterCriticalSection s.cs t).map fun cs => { s with cs := cs }.set t ⟨.setting, th.depth⟩
  | .setInout, .setting => some ({ s with inout := true }.set t ⟨.idle, th.depth + 1⟩)
  | .unlockTest, .idle =>
    if th.depth = 0 then none
    else some (s.set t (if s.inout then ⟨.clearing, th.depth⟩ else ⟨.idle, th.depth - 1⟩))
  | .clearInout, .clearing => some ({ s with inout := false }.set t ⟨.leaving, th.depth⟩)
  | .leave, .leaving =>
    (leaveCriticalSection s.cs t).map fun cs => { s with cs := cs }.set t ⟨.idle, th.depth - 1⟩
  | _, _ => none

end

/-! ## Mutual exclusion -/

def Inside (s : State ι) (t : ι) : Prop := 0 < (s.threads t).depth

/-- No two threads are inside `AutoLock` scopes at once. -/
def Exclusive (s : State ι) : Prop := ∀ t u, Inside s t → Inside s u → t = u

/-- `mlock` does not find `_inout` set. -/
def Unmarked (s : State ι) (a : ι × Act) : Prop := a.2 = .lockTest → s.inout = false

/-- Where a thread can be while no `mlock` has found `_inout` set. -/
def Thread.shape : Thread → Prop
  | ⟨.idle, depth⟩ => depth ≤ 1
  | ⟨.entering, depth⟩ | ⟨.setting, depth⟩ => depth = 0
  | ⟨.clearing, depth⟩ | ⟨.leaving, depth⟩ => depth = 1

/-- The thread has entered the section and not left it. -/
def Thread.holds (th : Thread) : Prop := 0 < th.depth ∨ th.pc = .setting

structure Inv (s : State ι) : Prop where
  shape : ∀ t, (s.threads t).shape
  owner : ∀ t, (s.threads t).holds ↔ s.cs.owner = some t
  count : s.cs.owner ≠ none → s.cs.count = 1
  empty : s.cs.owner = none → s.cs.count = 0
  marked : ∀ t, (s.threads t).pc = .idle → 0 < (s.threads t).depth → s.inout = true

theorem init_inv : Inv (State.init : State ι) where
  shape := fun _ => Nat.zero_le 1
  owner := by simp [State.init, Thread.holds]
  count := fun h => absurd rfl h
  empty := fun _ => rfl
  marked := by simp [State.init]

/-- Only the owner of the section is inside. -/
theorem Inv.exclusive {s : State ι} (h : Inv s) : Exclusive s := by
  intro t u ht hu
  have howner := (h.owner t).mp (.inl ht)
  rw [(h.owner u).mp (.inl hu)] at howner
  exact (Option.some.inj howner).symm

variable [DecidableEq ι]

/-- The invariant after a step of thread `t` that leaves the section's owner to
hold it. -/
theorem Inv.set {s : State ι} (h : Inv s) {cs : CriticalSection ι} {inout : Bool} {t : ι}
    {th : Thread} (hshape : th.shape) (howner : th.holds ↔ cs.owner = some t)
    (hothers : ∀ u, u ≠ t → (cs.owner = some u ↔ s.cs.owner = some u))
    (hcount : cs.owner ≠ none → cs.count = 1) (hempty : cs.owner = none → cs.count = 0)
    (hmarked : th.pc = .idle → 0 < th.depth → inout = true)
    (hinout : inout = s.inout ∨ ∀ u, u ≠ t → s.cs.owner ≠ some u) :
    Inv (State.set ⟨cs, inout, s.threads⟩ t th) := by
  refine ⟨?_, ?_, hcount, hempty, ?_⟩
  · intro u
    by_cases hu : u = t
    · subst hu; simpa [State.set] using hshape
    · simpa [State.set, hu] using h.shape u
  · intro u
    by_cases hu : u = t
    · subst hu; simpa [State.set] using howner
    · simpa [State.set, hu, hothers u hu] using h.owner u
  · intro u hidle hdepth
    by_cases hu : u = t
    · subst hu
      simp only [State.set, Function.update_self] at hidle hdepth
      exact hmarked hidle hdepth
    · simp only [State.set, Function.update_of_ne hu] at hidle hdepth
      rcases hinout with hsame | hfree
      · exact hsame ▸ h.marked u hidle hdepth
      · exact absurd ((h.owner u).mp (.inl hdepth)) (hfree u hu)

/-- What a step can do while the invariant holds and `mlock` finds the flag clear. -/
theorem step_inv {s s' : State ι} {a : ι × Act} (h : Inv s) (hfree : Unmarked s a)
    (hstep : step s a = some s') : Inv s' := by
  obtain ⟨t, a⟩ := a
  have hshape := h.shape t
  have howner := h.owner t
  have hmarked := h.marked t
  obtain ⟨⟨pc, depth⟩, hth⟩ : ∃ th, s.threads t = th := ⟨_, rfl⟩
  rw [hth] at hshape howner hmarked
  simp only [step, hth] at hstep
  split at hstep
  · -- a thread that is inside would have found the flag set
    cases hstep
    have hinout : s.inout = false := hfree rfl
    have hdepth : depth = 0 := by
      by_contra hne
      have := hmarked rfl (Nat.pos_of_ne_zero hne)
      rw [hinout] at this; cases this
    subst hdepth
    rw [hinout]
    exact h.set rfl (by simpa [Thread.holds] using howner) (fun _ _ => .rfl)
      h.count h.empty nofun (.inl rfl)
  · obtain ⟨cs, henter, rfl⟩ := Option.map_eq_some_iff.mp hstep
    obtain rfl : depth = 0 := hshape
    have hnot : s.cs.owner ≠ some t := by
      intro heq
      simpa [Thread.holds] using howner.mpr heq
    unfold enterCriticalSection at henter
    split at henter
    · next hor =>
      have hnone : s.cs.owner = none := hor.resolve_right hnot
      cases henter
      refine h.set rfl (by simp [Thread.holds]) ?_ ?_ nofun nofun (.inl rfl)
      · intro u hu
        simpa [hnone] using fun heq => hu heq.symm
      · intro _
        rw [h.empty hnone]
    · cases henter
  · cases hstep
    obtain rfl : depth = 0 := hshape
    have hown : s.cs.owner = some t := howner.mp (.inr rfl)
    refine h.set (Nat.le_refl 1) (by simp [Thread.holds, hown]) (fun _ _ => .rfl) h.count
      h.empty (fun _ _ => rfl) (.inr ?_)
    intro u hu heq
    rw [hown] at heq
    exact hu (Option.some.inj heq).symm
  · split at hstep
    · cases hstep
    · next hne =>
      cases hstep
      obtain rfl : depth = 1 := by
        have : depth ≤ 1 := hshape
        omega
      rw [hmarked rfl Nat.one_pos]
      exact h.set rfl (by simpa [Thread.holds] using howner) (fun _ _ => .rfl)
        h.count h.empty nofun (.inl rfl)
  · cases hstep
    obtain rfl : depth = 1 := hshape
    have hown : s.cs.owner = some t := howner.mp (.inl Nat.one_pos)
    refine h.set rfl (by simp [Thread.holds, hown]) (fun _ _ => .rfl) h.count
      h.empty nofun (.inr ?_)
    intro u hu heq
    rw [hown] at heq
    exact hu (Option.some.inj heq).symm
  · obtain ⟨cs, hleave, rfl⟩ := Option.map_eq_some_iff.mp hstep
    obtain rfl : depth = 1 := hshape
    have hown : s.cs.owner = some t := howner.mp (.inl Nat.one_pos)
    have hcount : s.cs.count = 1 := h.count (by rw [hown]; nofun)
    rw [leaveCriticalSection, if_pos hown, if_pos hcount] at hleave
    cases hleave
    refine h.set (Nat.zero_le 1) (by simp [Thread.holds]) ?_ nofun (fun _ => rfl)
      nofun (.inl rfl)
    intro u hu
    simpa [hown] using fun heq => hu heq.symm
  · cases hstep

/-- **Mutual exclusion holds in every state of every run in which no `mlock`
finds `_inout` set**, for any number of threads. -/
theorem exclusive_of_unmarked (ι : Type) [DecidableEq ι] (acts : List (ι × Act))
    (h : Meets step Unmarked State.init acts) : Along step Exclusive (State.init : State ι) acts :=
  along_of_keeps (fun _ hs => hs.exclusive) (fun _ _ _ hs ha hstep => step_inv hs ha hstep)
    init_inv h

/-- A thread whose `mlock` finds the flag set is inside at once, with whoever
set it. -/
theorem marked_inside {s : State ι} {t : ι} (hpc : (s.threads t).pc = .idle)
    (hinout : s.inout = true) :
    ∃ s', step s (t, .lockTest) = some s' ∧ Inside s' t ∧ ∀ u, Inside s u → Inside s' u := by
  refine ⟨s.set t ⟨.idle, (s.threads t).depth + 1⟩, ?_, ?_, ?_⟩
  · simp only [step, hpc, hinout, if_true]
  · simp [Inside, State.set]
  · intro u hu
    by_cases heq : u = t
    · subst heq; simp [Inside, State.set]
    · simpa [Inside, State.set, heq] using hu

/-! ## Two scopes at once -/

/-- One thread takes the lock, and the other one comes. -/
def twoLocks : List (Bool × Act) :=
  [(true, .lockTest), (true, .enter), (true, .setInout), (false, .lockTest)]

theorem two_inside : ∃ s, run step State.init twoLocks = some s ∧ ¬ Exclusive s :=
  ⟨_, rfl, fun h => absurd (h true false Nat.one_pos Nat.one_pos) (by decide)⟩

/-- Both threads find the flag clear before either sets it. -/
def bothTest : List (Bool × Act) :=
  [(true, .lockTest), (false, .lockTest), (true, .enter), (true, .setInout)]

/-- The first leaves, and the second comes in. -/
def takeTurns : List (Bool × Act) :=
  bothTest ++ [(true, .unlockTest), (true, .clearInout), (true, .leave), (false, .enter),
    (false, .setInout)]

/-- The second waits in `EnterCriticalSection` while the first is inside. -/
theorem exclusive_of_unmarked_takeTurns :
    ((run step State.init bothTest).bind fun s => step s (false, .enter)).isNone = true ∧
      (run step State.init takeTurns).isSome = true ∧
      Along step Exclusive (State.init : State Bool) takeTurns := by
  refine ⟨rfl, rfl, exclusive_of_unmarked Bool takeTurns ?_⟩
  refine ⟨fun _ => rfl, fun s₁ h₁ => ⟨fun _ => ?_, fun s₂ _ => ⟨nofun, fun s₃ _ => ⟨nofun,
    fun s₄ _ => ⟨nofun, fun s₅ _ => ⟨nofun, fun s₆ _ => ⟨nofun, fun s₇ _ => ⟨nofun,
    fun s₈ _ => ⟨nofun, fun s₉ _ => trivial⟩⟩⟩⟩⟩⟩⟩⟩⟩
  -- the first test has left the flag clear
  obtain rfl := Option.some.inj h₁
  rfl

end Autocom.Umutex
