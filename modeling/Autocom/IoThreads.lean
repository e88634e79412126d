import Autocom.IoData
import Autocom.Lib.Monitor

/-! # `IoData` under its mutex

The methods of `IoData`, one assignment at a time, called by any number of
threads. `AutoLock` is a lock that excludes, so every interleaving is a sequence
of the whole methods of `IoData`, and these make each direction a queue. -/
namespace Autocom.IoThreads
open Autocom Autocom.Lib.Monitor
open Autocom.Lib.Lts (run)

/-- The methods; `putOutBuf` and `putInBuf` are the overloads that take a
pointer and a length. -/
inductive Method
  | putOut (s : Bytes)
  | putOutBuf (s : Bytes) (len : Nat)
  | getOut
  | hasOutput
  | putIn (s : Bytes)
  | putInBuf (s : Bytes) (len : Nat)
  | getIn
  | hasInput

/-- The local `out` of a `get`, and the value of the condition that was tested. -/
structure Local where
  cond : Bool
  out : Bytes
  deriving DecidableEq

abbrev Assign := IoData × Local → IoData × Local

def testOut : Assign := fun x => (x.1, { x.2 with cond := x.1.hasOutput })
def testIn : Assign := fun x => (x.1, { x.2 with cond := x.1.hasInput })

/-- An assignment inside `if(!_out.empty())`. -/
def guarded (f : Assign) : Assign := fun x => if x.2.cond then f x else x

def ops : Ops Method IoData Local where
  start := fun _ => ⟨false, []⟩
  body
    | .putOut s => [fun x => (x.1.putOut s, x.2)]
    | .putOutBuf s len => [fun x => (x.1.putOut (s.take len), x.2)]
    | .getOut =>
      [testOut, guarded fun x => (x.1, { x.2 with out := x.2.out ++ x.1.out_ }),
        guarded fun x => ({ x.1 with out_ := [] }, x.2)]
    | .hasOutput => [testOut]
    | .putIn s => [fun x => (x.1.putIn s, x.2)]
    | .putInBuf s len => [fun x => (x.1.putIn (s.take len), x.2)]
    | .getIn =>
      [testIn, guarded fun x => (x.1, { x.2 with out := x.2.out ++ x.1.in_ }),
        guarded fun x => ({ x.1 with in_ := [] }, x.2)]
    | .hasInput => [testIn]

/-! ## The whole methods -/

theorem apply_getOut (io : IoData) :
    ops.apply .getOut io = (io.getOut.2, ⟨io.hasOutput, io.getOut.1⟩) := by
  by_cases h : io.out_ = []
  · simp [Ops.apply, ops, exec, testOut, guarded, IoData.hasOutput, IoData.getOut, h]
  · simp [Ops.apply, ops, exec, testOut, guarded, IoData.hasOutput, IoData.getOut, h]

theorem apply_getIn (io : IoData) :
    ops.apply .getIn io = (io.getIn.2, ⟨io.hasInput, io.getIn.1⟩) := by
  by_cases h : io.in_ = []
  · simp [Ops.apply, ops, exec, testIn, guarded, IoData.hasInput, IoData.getIn, h]
  · simp [Ops.apply, ops, exec, testIn, guarded, IoData.hasInput, IoData.getIn, h]

inductive Dir
  | in_
  | out_
  deriving DecidableEq

def Dir.buf : Dir → IoData → Bytes
  | .in_, io => io.in_
  | .out_, io => io.out_

/-- The direction a method works on. -/
def Method.dir : Method → Dir
  | .putOut _ | .putOutBuf _ _ | .getOut | .hasOutput => .out_
  | .putIn _ | .putInBuf _ _ | .getIn | .hasInput => .in_

/-- The bytes a method puts. -/
def Method.arg : Method → Bytes
  | .putOut s | .putIn s => s
  | .putOutBuf s len | .putInBuf s len => s.take len
  | _ => []

/-- The bytes a method hands out. -/
def Method.result : Method → Local → Bytes
  | .getOut, l | .getIn, l => l.out
  | _, _ => []

def Method.asks : Method → Bool
  | .hasOutput | .hasInput => true
  | _ => false

/-- What was put in a direction, in the order of the methods. -/
def puts (dir : Dir) (ms : List Method) : Bytes :=
  ms.flatMap fun m => if m.dir = dir then m.arg else []

/-- What was handed out of a direction. -/
def gots (dir : Dir) (done : List (Method × Local)) : Bytes :=
  done.flatMap fun e => if e.1.dir = dir then e.1.result e.2 else []

/-- **One method** hands out of its direction what was there, then keeps what it puts. -/
theorem apply_law (m : Method) (io : IoData) (dir : Dir) :
    (if m.dir = dir then m.result (ops.apply m io).2 else []) ++ dir.buf (ops.apply m io).1 =
      dir.buf io ++ (if m.dir = dir then m.arg else []) := by
  cases m with
  | getOut =>
    rw [apply_getOut, IoData.getOut_eq]
    cases dir <;> simp [Method.dir, Method.result, Method.arg, Dir.buf]
  | getIn =>
    rw [apply_getIn, IoData.getIn_eq]
    cases dir <;> simp [Method.dir, Method.result, Method.arg, Dir.buf]
  | _ =>
    cases dir <;>
      simp [Method.dir, Method.result, Method.arg, Dir.buf, Ops.apply, ops, exec, testOut, testIn]

theorem apply_asks {m : Method} (h : m.asks = true) (io : IoData) :
    (ops.apply m io).2.cond = false ↔ m.dir.buf io = [] := by
  cases m with
  | hasOutput => simp [Ops.apply, ops, exec, testOut, IoData.hasOutput, Method.dir, Dir.buf]
  | hasInput => simp [Ops.apply, ops, exec, testIn, IoData.hasInput, Method.dir, Dir.buf]
  | _ => cases h

theorem guarded_apart {f : Assign} {dir : Dir} (h : ∀ x, dir.buf (f x).1 = dir.buf x.1)
    (x : IoData × Local) : dir.buf (guarded f x).1 = dir.buf x.1 := by
  unfold guarded
  split
  · exact h x
  · rfl

/-- No assignment of a method touches the other direction. -/
theorem body_apart {m : Method} {f : Assign} (hf : f ∈ ops.body m) {dir : Dir} (hdir : m.dir ≠ dir)
    (x : IoData × Local) : dir.buf (f x).1 = dir.buf x.1 := by
  cases m with
  | getOut =>
    cases dir with
    | out_ => exact absurd rfl hdir
    | in_ =>
      simp only [ops, List.mem_cons, List.not_mem_nil, or_false] at hf
      rcases hf with rfl | rfl | rfl
      · rfl
      · exact guarded_apart (by intro y; rfl) x
      · exact guarded_apart (by intro y; rfl) x
  | getIn =>
    cases dir with
    | in_ => exact absurd rfl hdir
    | out_ =>
      simp only [ops, List.mem_cons, List.not_mem_nil, or_false] at hf
      rcases hf with rfl | rfl | rfl
      · rfl
      · exact guarded_apart (by intro y; rfl) x
      · exact guarded_apart (by intro y; rfl) x
  | putOut | putOutBuf | hasOutput =>
    cases dir with
    | out_ => exact absurd rfl hdir
    | in_ => obtain rfl := List.mem_singleton.mp hf; rfl
  | putIn | putInBuf | hasInput =>
    cases dir with
    | in_ => exact absurd rfl hdir
    | out_ => obtain rfl := List.mem_singleton.mp hf; rfl

/-! ## A sequence of methods -/

theorem sequential_law (ms : List Method) (dir : Dir) :
    gots dir (ops.sequential .empty ms).2 ++ dir.buf (ops.sequential .empty ms).1 =
      puts dir ms := by
  induction ms using List.reverseRecOn with
  | nil => cases dir <;> rfl
  | append_singleton ms m ih =>
    rw [sequential_append]
    have hone := apply_law m (ops.sequential .empty ms).1 dir
    simp only [gots, puts, List.flatMap_append, List.flatMap_singleton, List.append_assoc] at ih ⊢
    rw [hone, ← List.append_assoc, ih]

theorem sequential_asks (ms : List Method) {pre post : List (Method × Local)} {e : Method × Local}
    (h : (ops.sequential .empty ms).2 = pre ++ e :: post) (hasks : e.1.asks = true) :
    e.2.cond = false ↔ gots e.1.dir pre = puts e.1.dir (pre.map Prod.fst) := by
  induction ms using List.reverseRecOn generalizing post with
  | nil => simp [Ops.sequential] at h
  | append_singleton ms m ih =>
    rw [sequential_append] at h
    rcases List.eq_nil_or_concat post with rfl | ⟨post, e', rfl⟩
    · obtain ⟨hpre, he⟩ := List.append_inj' h rfl
      obtain rfl : _ = e := by simpa using he
      have hmap : pre.map Prod.fst = ms := by rw [← hpre]; exact sequential_map_fst ops _ ms
      -- what is in the buffer is what was put and not handed out
      have hlaw := sequential_law ms m.dir
      rw [hpre] at hlaw
      rw [hmap, ← hlaw, List.self_eq_append_right]
      exact apply_asks hasks _
    · have hsplit : (ops.sequential .empty ms).2 ++
          [(m, (ops.apply m (ops.sequential .empty ms).1).2)] = (pre ++ e :: post) ++ [e'] := by
        simpa using h
      exact ih (List.append_inj' hsplit rfl).1

/-! ## Every interleaving -/

variable {ι : Type} [DecidableEq ι]

/-- Two queues: what the threads have called, once the method inside the mutex
has finished. -/
structure Queues (s : State ι Method IoData Local) : Prop where
  /-- nobody is inside and nothing is to be finished -/
  free : s.owner = none → s.settled = (s.data, s.done)
  /-- the methods that have run are those that took the mutex, in that order -/
  order : s.settled.2.map Prod.fst = s.order
  /-- first in, first out, and nothing lost -/
  fifo : ∀ dir, gots dir s.settled.2 ++ dir.buf s.settled.1 = puts dir s.order
  /-- `hasOutput` and `hasInput` are false when all that was put has been handed out -/
  asked : ∀ pre e post, s.settled.2 = pre ++ e :: post → e.1.asks = true →
    (e.2.cond = false ↔ gots e.1.dir pre = puts e.1.dir (pre.map Prod.fst))
  /-- only a method of the direction changes its buffer -/
  apart : ∀ t a s', step ops s (t, a) = some s' → ∀ dir, dir.buf s'.data ≠ dir.buf s.data →
    ∃ m rest l, s.pcs t = .inside m rest l ∧ m.dir = dir

/-- **`IoData` is a pair of queues** for any number of threads and any
interleaving. -/
theorem queues_of_run (ι : Type) [DecidableEq ι] (acts : List (ι × Act Method))
    (s : State ι Method IoData Local)
    (h : run (step ops) (init IoData.empty) acts = some s) : Queues s := by
  have hsettled := run_settled h
  refine ⟨settled_free, ?_, ?_, ?_, ?_⟩
  · rw [hsettled]
    exact sequential_map_fst ops _ _
  · intro dir
    rw [hsettled]
    exact sequential_law s.order dir
  · intro pre e post hsplit hasks
    rw [hsettled] at hsplit
    exact sequential_asks s.order hsplit hasks
  · intro t a s' hstep dir hchange
    rcases step_data (run_suffixes h) hstep with heq | ⟨m, rest, l, hpc, f, hf, heq⟩
    · rw [heq] at hchange
      exact absurd rfl hchange
    · refine ⟨m, rest, l, hpc, ?_⟩
      by_contra hdir
      exact hchange (by rw [heq]; exact body_apart hf hdir _)

/-- A thread puts `ab` while another waits to fetch it. -/
def putAndGet : List (Bool × Act Method) :=
  [(true, .call (.putOut [0x61, 0x62])), (true, .lock), (false, .call .getOut), (true, .work),
    (true, .unlock), (false, .lock), (false, .work), (false, .work)]

theorem queues_of_run_put : ∃ s, run (step ops) (init IoData.empty) putAndGet = some s ∧ Queues s :=
  ⟨_, rfl, queues_of_run Bool putAndGet _ rfl⟩

end Autocom.IoThreads
