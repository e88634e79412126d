import Autocom.Lib.Lts

/-! # `MyScript` and the stack of the VM

A compile leaves its closure on the stack of the VM, and `reset`, which the
destructor calls, pops it. Every method of `MyScript` is its pushes and pops;
what the scripts do is the outcome of each `sq_call`. The objects are returned
by value with the copy elided, as the compiler does it. -/
namespace Autocom.Scripts
open Autocom.Lib.Lts

/-! ## The VM -/

/-- The height of the stack, and the lowest it has been. -/
structure Vm where
  top : Int
  low : Int
  deriving DecidableEq

namespace Vm

def push (v : Vm) : Vm := { v with top := v.top + 1 }

/-- `sq_pop(_vm, n)`. -/
def pop (v : Vm) (n : Int) : Vm := ⟨v.top - n, min v.low (v.top - n)⟩

/-- `sq_call` leaves the closure where it is. -/
def sq_call (v : Vm) (params : Int) (retval ok : Bool) : Vm :=
  let v := v.pop params
  if ok && retval then v.push else v

end Vm

/-- `_lasterror`: nothing, a value that `sq_tostring` turns into text, or one
whose `_tostring` throws. -/
inductive LastError
  | null
  | text
  | unprintable
  deriving DecidableEq

/-- `none`: the string is made from a pointer that was never set. -/
def LastErrorString (v : Vm) (e : LastError) : Option Vm :=
  let v := v.push
  match e with
  | .null => some (v.pop 1)
  | .text => some (v.push.pop 2)
  | .unprintable => none

/-- How a call into the VM ends. -/
inductive Outcome
  | ok
  | failed (e : LastError)
  deriving DecidableEq

/-! ## `MyScript` -/

/-- `null` is `sq_isnull(_obj)`. -/
structure MyScript where
  null : Bool
  deriving DecidableEq

namespace MyScript

def copy (r : MyScript) : MyScript := ⟨r.null⟩

def reset (_ : MyScript) (v : Vm) : MyScript × Vm := (⟨true⟩, v.pop 1)

/-- The closure is not pushed: it is what the compile left on the stack. -/
def run_cmdline (_ : MyScript) (v : Vm) : Outcome → Option Vm
  | .ok => some (v.push.sq_call 1 false true)
  | .failed e => LastErrorString ((v.push.sq_call 1 false false).pop 1) e

def run_script (_ : MyScript) (v : Vm) : Outcome → Option Vm
  | .ok => some ((v.push.push.sq_call 1 true true).pop 2)
  | .failed e => LastErrorString ((v.push.push.sq_call 1 true false).pop 1) e

def RunOld (m : MyScript) (v : Vm) (r : Outcome) : Option Vm :=
  if m.null then some v
  else match r with
    | .ok => some (v.push.push.sq_call 1 false true)
    | .failed e => LastErrorString (v.push.push.sq_call 1 false false) e

/-- `sqstd_writeclosuretofile` leaves the stack alone. -/
def WriteCompiledFile (m : MyScript) (v : Vm) : Vm := if m.null then v else v.push

end MyScript

/-- `sqstd_loadfile` and `sq_compilebuffer` push the closure when they succeed. -/
def compile (v : Vm) : Outcome → Option (Vm × List MyScript)
  | .ok => some (v.push, [⟨false⟩])
  | .failed e => (LastErrorString v e).map fun v => (v, [])

def SqEnv.compile_script (v : Vm) (r : Outcome) : Option (Vm × List MyScript) := compile v r

def SqEnv.compile_buffer (v : Vm) (r : Outcome) : Option (Vm × List MyScript) := compile v r

/-! ## Runs -/

/-- The objects that are alive, in the order in which they were made. -/
structure Env where
  vm : Vm
  objs : List MyScript
  deriving DecidableEq

def Env.init (base : Int) : Env := ⟨⟨base, base⟩, []⟩

inductive Op
  | compile_script (r : Outcome)
  | compile_buffer (r : Outcome)
  | copy (i : Nat)
  | run_script (i : Nat) (r : Outcome)
  | run_cmdline (i : Nat) (r : Outcome)
  | RunOld (i : Nat) (r : Outcome)
  | WriteCompiledFile (i : Nat)
  | reset (i : Nat)
  | destroy (i : Nat)
  deriving DecidableEq

/-- `none`: there is no such object, or the process is gone. -/
def step (s : Env) : Op → Option Env
  | .compile_script r => (SqEnv.compile_script s.vm r).map fun c => ⟨c.1, s.objs ++ c.2⟩
  | .compile_buffer r => (SqEnv.compile_buffer s.vm r).map fun c => ⟨c.1, s.objs ++ c.2⟩
  | .copy i => s.objs[i]?.map fun m => { s with objs := s.objs ++ [m.copy] }
  | .run_script i r => do return { s with vm := ← (← s.objs[i]?).run_script s.vm r }
  | .run_cmdline i r => do return { s with vm := ← (← s.objs[i]?).run_cmdline s.vm r }
  | .RunOld i r => do return { s with vm := ← (← s.objs[i]?).RunOld s.vm r }
  | .WriteCompiledFile i => s.objs[i]?.map fun m => { s with vm := m.WriteCompiledFile s.vm }
  | .reset i => s.objs[i]?.map fun m => ⟨(m.reset s.vm).2, s.objs.set i (m.reset s.vm).1⟩
  | .destroy i => s.objs[i]?.map fun m => ⟨(m.reset s.vm).2, s.objs.eraseIdx i⟩

/-! ## What each method does to the stack -/

/-- The height changes by `d`, and the stack is never lower than at one of the
two ends. -/
structure Effect (v v' : Vm) (d : Int) : Prop where
  top : v'.top = v.top + d
  low : min v.low (min v.top (v.top + d)) ≤ v'.low

theorem Effect.trans {v w u : Vm} {d e : Int} (h : Effect v w d) (h' : Effect w u e)
    (hd : min 0 (d + e) ≤ d) : Effect v u (d + e) := by
  have htop := h.top
  have hlow := h.low
  have hlow' := h'.low
  refine ⟨by rw [h'.top, htop]; omega, ?_⟩
  rw [htop] at hlow'
  omega

theorem Effect.refl (v : Vm) : Effect v v 0 := ⟨by omega, by omega⟩

theorem push_effect (v : Vm) : Effect v v.push 1 := ⟨rfl, by simp only [Vm.push]; omega⟩

theorem pop_effect (v : Vm) : Effect v (v.pop 1) (-1) :=
  ⟨by simp only [Vm.pop]; omega, by simp only [Vm.pop]; omega⟩

theorem LastErrorString_effect {v v' : Vm} {e : LastError}
    (h : LastErrorString v e = some v') : Effect v v' 0 := by
  cases e with
  | null => cases h; exact (push_effect v).trans (pop_effect v.push) (by decide)
  | text => cases h; constructor <;> simp only [Vm.push, Vm.pop] <;> omega
  | unprintable => cases h

theorem reset_effect (m : MyScript) (v : Vm) : Effect v (m.reset v).2 (-1) := pop_effect v

theorem run_script_effect {m : MyScript} {v v' : Vm} {r : Outcome}
    (h : m.run_script v r = some v') : Effect v v' 0 := by
  cases r with
  | ok => cases h; constructor <;> dsimp [Vm.sq_call, Vm.push, Vm.pop] <;> omega
  | failed e =>
    have hcall : Effect v ((v.push.push.sq_call 1 true false).pop 1) 0 := by
      constructor <;> dsimp [Vm.sq_call, Vm.push, Vm.pop] <;> omega
    exact hcall.trans (LastErrorString_effect h) (by decide)

/-- A failed `run_cmdline` pops what the compile left. -/
theorem run_cmdline_effect {m : MyScript} {v v' : Vm} {r : Outcome}
    (h : m.run_cmdline v r = some v') : Effect v v' (if r = .ok then 0 else -1) := by
  cases r with
  | ok => cases h; exact (push_effect v).trans (pop_effect v.push) (by decide)
  | failed e =>
    have hcall : Effect v ((v.push.sq_call 1 false false).pop 1) (-1) := by
      constructor <;> dsimp [Vm.sq_call, Vm.push, Vm.pop] <;> omega
    exact hcall.trans (LastErrorString_effect h) (by decide)

/-- `RunOld` leaves the closure it pushed, however the call ends. -/
theorem RunOld_effect {m : MyScript} {v v' : Vm} {r : Outcome}
    (h : m.RunOld v r = some v') : Effect v v' (if m.null then 0 else 1) := by
  unfold MyScript.RunOld at h
  split at h
  · next hnull => cases h; rw [if_pos hnull]; exact .refl v
  · next hnull =>
    rw [if_neg hnull]
    cases r with
    | ok => cases h; constructor <;> dsimp [Vm.sq_call, Vm.push, Vm.pop] <;> omega
    | failed e =>
      have hcall : Effect v (v.push.push.sq_call 1 false false) 1 := by
        constructor <;> dsimp [Vm.sq_call, Vm.push, Vm.pop] <;> omega
      exact hcall.trans (LastErrorString_effect h) (by decide)

theorem WriteCompiledFile_effect (m : MyScript) (v : Vm) :
    Effect v (m.WriteCompiledFile v) (if m.null then 0 else 1) := by
  unfold MyScript.WriteCompiledFile
  split
  · exact .refl v
  · exact push_effect v

theorem compile_effect {v : Vm} {r : Outcome} {c : Vm × List MyScript}
    (h : compile v r = some c) : Effect v c.1 c.2.length := by
  cases r with
  | ok => cases h; exact push_effect v
  | failed e =>
    obtain ⟨v', hv, rfl⟩ := Option.map_eq_some_iff.mp h
    exact LastErrorString_effect hv

/-! ## One step -/

/-- What a step changes the height by, beyond one slot for each object. -/
def drift (s : Env) : Op → Int
  | .copy _ | .reset _ => -1
  | .run_cmdline _ r => if r = .ok then 0 else -1
  | .RunOld i _ | .WriteCompiledFile i => if s.objs[i]? = some ⟨false⟩ then 1 else 0
  | _ => 0

theorem if_null {s : Env} {i : Nat} {m : MyScript} (h : s.objs[i]? = some m) :
    (if m.null then 0 else 1 : Int) = if s.objs[i]? = some ⟨false⟩ then 1 else 0 := by
  obtain ⟨null⟩ := m
  rw [h]
  cases null <;> rfl

/-- **A step** keeps a slot for each object, up to its drift. -/
theorem step_effect {s t : Env} {op : Op} (h : step s op = some t) :
    Effect s.vm t.vm (t.objs.length - s.objs.length + drift s op) := by
  cases op with
  | compile_script r | compile_buffer r =>
    obtain ⟨c, hc, rfl⟩ := Option.map_eq_some_iff.mp h
    have hlen : ((s.objs ++ c.2).length : Int) - s.objs.length + 0 = c.2.length := by
      rw [List.length_append]; omega
    exact hlen ▸ compile_effect hc
  | copy i =>
    obtain ⟨m, hm, rfl⟩ := Option.map_eq_some_iff.mp h
    have hlen : ((s.objs ++ [m.copy]).length : Int) - s.objs.length + -1 = 0 := by
      rw [List.length_append, List.length_singleton]; omega
    exact hlen ▸ Effect.refl s.vm
  | run_script i r =>
    obtain ⟨m, hm, h⟩ := Option.bind_eq_some_iff.mp h
    obtain ⟨vm, hvm, h⟩ := Option.bind_eq_some_iff.mp h
    cases h
    simpa [drift] using run_script_effect hvm
  | run_cmdline i r =>
    obtain ⟨m, hm, h⟩ := Option.bind_eq_some_iff.mp h
    obtain ⟨vm, hvm, h⟩ := Option.bind_eq_some_iff.mp h
    cases h
    simpa [drift] using run_cmdline_effect hvm
  | RunOld i r =>
    obtain ⟨m, hm, h⟩ := Option.bind_eq_some_iff.mp h
    obtain ⟨vm, hvm, h⟩ := Option.bind_eq_some_iff.mp h
    cases h
    have heffect := RunOld_effect hvm
    rw [if_null hm] at heffect
    simpa [drift] using heffect
  | WriteCompiledFile i =>
    obtain ⟨m, hm, rfl⟩ := Option.map_eq_some_iff.mp h
    have heffect := WriteCompiledFile_effect m s.vm
    rw [if_null hm] at heffect
    simpa [drift] using heffect
  | reset i =>
    obtain ⟨m, hm, rfl⟩ := Option.map_eq_some_iff.mp h
    simpa [drift] using reset_effect m s.vm
  | destroy i =>
    obtain ⟨m, hm, rfl⟩ := Option.map_eq_some_iff.mp h
    obtain ⟨hi, -⟩ := List.getElem?_eq_some_iff.mp hm
    have hlen : ((s.objs.eraseIdx i).length : Int) - s.objs.length = -1 := by
      rw [List.length_eraseIdx_of_lt hi]; omega
    simpa [drift, hlen] using reset_effect m s.vm

/-! ## Runs -/

/-- A step that needs no slot besides those of the objects: no copy, no explicit
`reset`, no `run_cmdline` that fails, and no `RunOld` or `WriteCompiledFile` on
an object that has its closure. -/
def Tidy (s : Env) : Op → Prop
  | .copy _ | .reset _ => False
  | .run_cmdline _ r => r = .ok
  | .RunOld i _ | .WriteCompiledFile i => s.objs[i]? ≠ some ⟨false⟩
  | _ => True

theorem tidy_iff (s : Env) (op : Op) : Tidy s op ↔ drift s op = 0 := by
  cases op with
  | run_cmdline i r => by_cases hr : r = .ok <;> simp [Tidy, drift, hr]
  | RunOld i r => by_cases hm : s.objs[i]? = some ⟨false⟩ <;> simp [Tidy, drift, hm]
  | WriteCompiledFile i => by_cases hm : s.objs[i]? = some ⟨false⟩ <;> simp [Tidy, drift, hm]
  | _ => simp [Tidy, drift]

instance (s : Env) (op : Op) : Decidable (Tidy s op) := decidable_of_iff _ (tidy_iff s op).symm

/-- One slot for each object, and the stack has not been lower than at first. -/
structure Balanced (base : Int) (s : Env) : Prop where
  top : s.vm.top = base + s.objs.length
  low : base ≤ s.vm.low

theorem step_balanced {base : Int} {s t : Env} {op : Op} (h : Balanced base s) (htidy : Tidy s op)
    (hstep : step s op = some t) : Balanced base t := by
  have htop := h.top
  have hlow := h.low
  have heffect := step_effect hstep
  rw [(tidy_iff s op).mp htidy] at heffect
  have htop' := heffect.top
  have hlow' := heffect.low
  exact ⟨by omega, by omega⟩

/-- What the scripts promise of the stack whose height was `base`. -/
def Kept (base : Int) (s : Env) : Prop := base ≤ s.vm.low ∧ (s.objs = [] → s.vm.top = base)

theorem Balanced.kept {base : Int} {s : Env} (h : Balanced base s) : Kept base s :=
  ⟨h.low, fun hnil => by rw [h.top, hnil]; simp⟩

/-- **The stack stays balanced** along each run of tidy steps. -/
theorem kept_of_tidy (base : Int) (ops : List Op) (h : Meets step Tidy (Env.init base) ops) :
    Along step (Kept base) (Env.init base) ops :=
  along_of_keeps (I := Balanced base) (fun _ => Balanced.kept)
    (fun _ _ _ hs htidy hstep => step_balanced hs htidy hstep)
    ⟨by simp [Env.init], Int.le_refl base⟩ h

/-- A script that runs, then fails, then runs from the command line. -/
def compileAndRun : List Op :=
  [.compile_script .ok, .run_script 0 .ok, .run_script 0 (.failed .text), .run_cmdline 0 .ok,
    .destroy 0]

theorem kept_of_tidy_compile : Along step (Kept 5) (Env.init 5) compileAndRun :=
  kept_of_tidy 5 compileAndRun (by decide)

/-- A compile, a copy, and both objects destroyed: two slots are popped. -/
theorem copy_pops_twice :
    ∃ t, run step (Env.init 5) [.compile_script .ok, .copy 0, .destroy 1, .destroy 0] = some t ∧
      ¬ Kept 5 t :=
  ⟨⟨⟨4, 4⟩, []⟩, by decide, fun h => absurd (h.2 rfl) (by decide)⟩

/-! ## The other steps -/

/-- Destroying all objects pops a slot for each. -/
theorem run_destroys (objs : List MyScript) (v : Vm) :
    ∃ t, run step ⟨v, objs⟩ (List.replicate objs.length (.destroy 0)) = some t ∧
      t.objs = [] ∧ t.vm.top = v.top - objs.length := by
  induction objs generalizing v with
  | nil => exact ⟨_, rfl, rfl, by simp⟩
  | cons m objs ih =>
    obtain ⟨t, hrun, hnil, htop⟩ := ih (v.pop 1)
    refine ⟨t, run_cons.mpr ⟨_, rfl, hrun⟩, hnil, ?_⟩
    rw [htop, List.length_cons]
    simp only [Vm.pop]
    omega

/-- **The first step that is not tidy** is not made good by destroying the objects. -/
theorem not_kept_of_untidy {base : Int} {s t : Env} {op : Op} (h : Balanced base s)
    (hstep : step s op = some t) (huntidy : ¬ Tidy s op) :
    ∃ ops u, run step t ops = some u ∧ ¬ Kept base u := by
  have htop := (step_effect hstep).top
  have hdrift : drift s op ≠ 0 := fun hzero => huntidy ((tidy_iff s op).mpr hzero)
  obtain ⟨u, hrun, hnil, hend⟩ := run_destroys t.objs t.vm
  refine ⟨_, u, hrun, fun hkept => ?_⟩
  have hbase := hkept.2 hnil
  have hheight := h.top
  omega

end Autocom.Scripts
