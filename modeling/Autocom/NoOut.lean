import Autocom.IoData
import Autocom.Lib.Lts
import Mathlib.Data.List.Chain

/-! # `noout`: waiting until the output rests

The loop looks at `outLen` once before it sleeps and once in each turn, and stops
when it finds what it found before. `outLen` is 1 for an empty queue and 0 for any
other, and before the first look `so` is 0, which is what a queue with bytes in
it gives. -/
namespace Autocom.NoOut
open Autocom Autocom.Lib.Lts

/-! ## The function among other threads -/

/-- Where `noout` is. Each of its looks at what other threads change is a step of
its own. -/
inductive Pc
  | start
  | first
  | msleep
  | asleep (wake : Int)
  | compare
  | sample
  | alive
  | tick
  | hook
  | returned (tick : Int)
  deriving DecidableEq

/-- `samples`, newest first, has the tick and the bytes queued at each `outLen`;
`alives` and `hooks` have what the other tests of the loop found. No branch looks
at these three. -/
structure State where
  io : IoData
  tick : Int
  alive : Bool
  pc : Pc
  tf : Int
  so : Nat
  nsz : Nat
  samples : List (Int × Nat)
  alives : List Bool
  hooks : List Int
  deriving DecidableEq

def init (io : IoData) (tick : Int) (alive : Bool) : State :=
  ⟨io, tick, alive, .start, 0, 0, 0, [], [], []⟩

/-- `nsz = _io.outLen()`. -/
def State.sample (s : State) : State :=
  { s with nsz := s.io.outLen, samples := (s.tick, s.io.out_.length) :: s.samples }

/-- The next step of `noout`; `rv` is what `_notifyWaiting` returns if it is called
in it. `none`: asleep, or returned. -/
def next (to_ max rv : Int) (s : State) : Option State :=
  match s.pc with
  | .start => some { s with so := 0, tf := s.tick + max, pc := .first }
  | .first => some { s.sample with pc := .msleep }
  | .msleep => some { s with pc := .asleep (s.tick + to_) }
  | .asleep wake => if wake ≤ s.tick then some { s with pc := .compare } else none
  | .compare =>
    if s.nsz ≠ s.so then some { s with so := s.nsz, pc := .sample }
    else some { s with pc := .returned s.tick }
  | .sample => some { s.sample with pc := .alive }
  | .alive =>
    let s := { s with alives := s.alive :: s.alives }
    if s.alive then some { s with pc := .tick } else some { s with pc := .returned s.tick }
  | .tick =>
    if s.tick < s.tf then some { s with pc := .hook } else some { s with pc := .returned s.tick }
  | .hook =>
    let s := { s with hooks := rv :: s.hooks }
    if rv = 0 then some { s with pc := .msleep } else some { s with pc := .returned s.tick }
  | .returned _ => none

/-- The IO thread drains the queue, other code appends, time passes, and `Exit`
clears `__alive`. -/
inductive Action
  | noout (rv : Int)
  | putOut (bytes : Bytes)
  | getOut
  | putIn (bytes : Bytes)
  | getIn
  | pass (ms : Nat)
  | exit
  deriving DecidableEq

def step (to_ max : Int) (s : State) : Action → Option State
  | .noout rv => next to_ max rv s
  | .putOut bytes => some { s with io := s.io.putOut bytes }
  | .getOut => some { s with io := s.io.getOut.2 }
  | .putIn bytes => some { s with io := s.io.putIn bytes }
  | .getIn => some { s with io := s.io.getIn.2 }
  | .pass ms => some { s with tick := s.tick + ms }
  | .exit => some { s with alive := false }

/-- It returned before `max` had passed, and neither `__alive` nor the hook was
the reason. -/
structure Early (s : State) : Prop where
  returned : ∃ tick, s.pc = .returned tick ∧ tick < s.tf
  alive : ∀ b ∈ s.alives, b = true
  hook : ∀ rv ∈ s.hooks, rv = 0

/-- Two samples in a row, `to` apart, with the same number of bytes queued. -/
def Rested (to_ : Int) (samples : List (Int × Nat)) : Prop :=
  ∃ post q p pre, samples = post ++ q :: p :: pre ∧ p.1 + to_ ≤ q.1 ∧ q.2 = p.2

/-- A sample of `n` bytes that `outLen` does not mistake: at first an empty queue,
and later no other number of bytes than before, unless one of the two is 0. -/
def Fits : List (Int × Nat) → Nat → Prop
  | [], n => n = 0
  | p :: _, n => p.2 ≠ 0 → n ≠ 0 → n = p.2

/-- The samples that are taken fit. -/
def Sampled (s : State) : Action → Prop
  | .noout _ => s.pc = .first ∨ s.pc = .sample → Fits s.samples s.io.out_.length
  | _ => True

/-! ## What the samples say -/

/-- What `outLen` is for so many bytes. -/
def outLenOf (n : Nat) : Nat := if n = 0 then 1 else 0

/-- What `so` is while the next sample is in `nsz`. -/
def soAfter : List (Int × Nat) → Nat
  | [] => 0
  | p :: _ => outLenOf p.2

/-- Each sample made `outLen` another than it was, so that the loop went on. -/
def Changing : List (Int × Nat) → Prop
  | [] => True
  | p :: rest => outLenOf p.2 ≠ soAfter rest ∧ Changing rest

def AllFit : List (Int × Nat) → Prop
  | [] => True
  | p :: rest => Fits rest p.2 ∧ AllFit rest

def Spaced (to_ : Int) (samples : List (Int × Nat)) : Prop :=
  samples.IsChain fun q p => p.1 + to_ ≤ q.1

theorem outLenOf_eq_iff {m n : Nat} : outLenOf m = outLenOf n ↔ (m = 0 ↔ n = 0) := by
  unfold outLenOf
  split <;> split <;> omega

/-- What sends the loop on fits: one of the two counts is 0. -/
theorem Changing.allFit {samples : List (Int × Nat)} (h : Changing samples) : AllFit samples := by
  induction samples with
  | nil => trivial
  | cons q rest ih =>
    refine ⟨?_, ih h.2⟩
    have hne := h.1
    cases rest with
    | nil => exact by_contra fun hq => hne (if_neg hq)
    | cons p rest =>
      intro hp hq
      exact absurd (outLenOf_eq_iff.mpr (iff_of_false hq hp)) hne

/-- Two samples in a row either are the newest or are in what is left. -/
theorem rested_cons {to_ : Int} {q : Int × Nat} {rest : List (Int × Nat)} :
    Rested to_ (q :: rest) ↔
      (∃ p, rest.head? = some p ∧ p.1 + to_ ≤ q.1 ∧ q.2 = p.2) ∨ Rested to_ rest := by
  constructor
  · intro ⟨post, q', p, pre, heq, hto, hsame⟩
    cases post with
    | nil =>
      obtain ⟨rfl, rfl⟩ := List.cons.inj heq
      exact .inl ⟨p, rfl, hto, hsame⟩
    | cons r post =>
      obtain ⟨rfl, rfl⟩ := List.cons.inj heq
      exact .inr ⟨post, q', p, pre, rfl, hto, hsame⟩
  · intro h
    rcases h with ⟨p, hp, hto, hsame⟩ | ⟨post, q', p, pre, rfl, hto, hsame⟩
    · obtain ⟨pre, rfl⟩ : ∃ pre, rest = p :: pre := ⟨rest.tail, (List.eq_cons_of_mem_head? hp)⟩
      exact ⟨[], q, p, pre, rfl, hto, hsame⟩
    · exact ⟨q :: post, q', p, pre, rfl, hto, hsame⟩

/-- As long as the loop goes on nothing has rested. -/
theorem Changing.not_rested {to_ : Int} {samples : List (Int × Nat)} (h : Changing samples) :
    ¬ Rested to_ samples := by
  induction samples with
  | nil => intro ⟨post, q, p, pre, heq, _⟩; simp at heq
  | cons q rest ih =>
    rw [rested_cons]
    intro hrested
    rcases hrested with ⟨p, hp, -, hsame⟩ | hrested
    · have hso : soAfter rest = outLenOf p.2 := by
        cases rest with
        | nil => cases hp
        | cons r rest => rw [Option.some.inj hp]; rfl
      exact h.1 (by rw [hso, hsame])
    · exact ih h.2 hrested

/-- **The last comparison** finds two numbers of bytes for which `outLen` is the
same; they are the same themselves exactly when every sample fits. -/
theorem rested_iff_allFit {to_ : Int} {q : Int × Nat} {rest : List (Int × Nat)}
    (hspaced : Spaced to_ (q :: rest)) (hchanging : Changing rest)
    (hlast : outLenOf q.2 = soAfter rest) : Rested to_ (q :: rest) ↔ AllFit (q :: rest) := by
  rw [rested_cons, or_iff_left hchanging.not_rested, AllFit,
    and_iff_left hchanging.allFit]
  cases rest with
  | nil =>
    refine iff_of_false (fun ⟨p, hp, _⟩ => by cases hp) (fun hq => ?_)
    rw [show q.2 = 0 from hq] at hlast
    exact absurd hlast (by decide)
  | cons p rest =>
    have hboth := outLenOf_eq_iff.mp hlast
    have hto : p.1 + to_ ≤ q.1 := (List.isChain_cons_cons.mp hspaced).1
    constructor
    · intro ⟨p', hp', _, hsame⟩ _ _
      rw [hsame, ← Option.some.inj hp']
    · intro hfits
      refine ⟨p, rfl, hto, ?_⟩
      by_cases hq : q.2 = 0
      · rw [hq, hboth.mp hq]
      · exact hfits (fun hp => hq (hboth.mpr hp)) hq

/-! ## What holds at each place -/

/-- `nsz` is from the newest sample `p`, `so` from the one before it. -/
def Taken (s : State) (P : Int × Nat → Prop) : Prop :=
  ∃ p rest, s.samples = p :: rest ∧ s.nsz = outLenOf p.2 ∧ s.so = soAfter rest ∧
    Changing rest ∧ P p

/-- `so` and `nsz` are what `outLen` was at the last samples, and the newest
sample is as old as the sleep after it makes it. -/
def At (to_ : Int) (s : State) : Prop :=
  match s.pc with
  | .start => s.samples = []
  | .first => s.samples = [] ∧ s.so = 0
  | .asleep wake => Taken s fun p => p.1 + to_ ≤ wake
  | .compare => Taken s fun p => p.1 + to_ ≤ s.tick
  | .sample => s.so = soAfter s.samples ∧ Changing s.samples ∧
      ∀ p, s.samples.head? = some p → p.1 + to_ ≤ s.tick
  | .returned _ => ∃ p rest, s.samples = p :: rest ∧ Changing rest ∧
      (Early s → outLenOf p.2 = soAfter rest)
  | _ => Taken s fun p => p.1 ≤ s.tick

structure Inv (to_ : Int) (s : State) : Prop where
  spaced : Spaced to_ s.samples
  at_ : At to_ s

theorem Taken.mono {s : State} {P Q : Int × Nat → Prop} (h : Taken s P)
    (hPQ : ∀ p, P p → Q p) : Taken s Q := by
  obtain ⟨p, rest, hsamples, hnsz, hso, hchanging, hp⟩ := h
  exact ⟨p, rest, hsamples, hnsz, hso, hchanging, hPQ p hp⟩

/-- What other threads do to the state that `noout` runs in. -/
def State.pass (s : State) (io : IoData) (ms : Nat) (alive : Bool) : State :=
  { s with io := io, tick := s.tick + ms, alive := alive }

/-- A step is one of `noout`, or leaves its variables alone. -/
theorem step_cases {to_ max : Int} {s t : State} {a : Action} (h : step to_ max s a = some t) :
    (∃ rv, a = .noout rv ∧ next to_ max rv s = some t) ∨
      (Sampled s a ∧ ∃ io ms alive, t = s.pass io ms alive) := by
  cases a with
  | noout rv => exact .inl ⟨rv, rfl, h⟩
  | pass ms => exact .inr ⟨trivial, s.io, ms, s.alive, (Option.some.inj h).symm⟩
  | exit => exact .inr ⟨trivial, s.io, 0, false, by simpa [step, State.pass] using h.symm⟩
  | putOut bytes =>
    exact .inr ⟨trivial, s.io.putOut bytes, 0, s.alive, by simpa [step, State.pass] using h.symm⟩
  | getOut =>
    exact .inr ⟨trivial, s.io.getOut.2, 0, s.alive, by simpa [step, State.pass] using h.symm⟩
  | putIn bytes =>
    exact .inr ⟨trivial, s.io.putIn bytes, 0, s.alive, by simpa [step, State.pass] using h.symm⟩
  | getIn =>
    exact .inr ⟨trivial, s.io.getIn.2, 0, s.alive, by simpa [step, State.pass] using h.symm⟩

theorem Early.of_pass {s : State} {io : IoData} {ms : Nat} {alive : Bool}
    (h : Early (s.pass io ms alive)) : Early s := ⟨h.returned, h.alive, h.hook⟩

/-- Other threads take nothing away: time only goes on. -/
theorem Inv.pass {to_ : Int} {s : State} (h : Inv to_ s) (io : IoData) (ms : Nat) (alive : Bool) :
    Inv to_ (s.pass io ms alive) := by
  refine ⟨h.spaced, ?_⟩
  have hat := h.at_
  have htick : s.tick ≤ (s.pass io ms alive).tick := by simp [State.pass]
  have hpc : (s.pass io ms alive).pc = s.pc := rfl
  unfold At at hat ⊢
  rw [hpc]
  cases hs : s.pc <;> simp only [hs] at hat
  case start | first | asleep => exact hat
  case compare => exact hat.mono fun p hp => hp.trans htick
  case msleep | alive | tick | hook => exact hat.mono fun p hp => hp.trans htick
  case sample => exact ⟨hat.1, hat.2.1, fun p hp => (hat.2.2 p hp).trans htick⟩
  case returned =>
    obtain ⟨p, rest, hsamples, hchanging, hlast⟩ := hat
    exact ⟨p, rest, hsamples, hchanging, fun hearly => hlast hearly.of_pass⟩

/-- `nsz` is not `so`: the sample has changed `outLen`, and `so` becomes what it
made of it. -/
theorem Taken.changed {s : State} {P : Int × Nat → Prop} (h : Taken s P) (hne : s.nsz ≠ s.so) :
    s.nsz = soAfter s.samples ∧ Changing s.samples ∧
      ∀ p, s.samples.head? = some p → P p := by
  obtain ⟨p, rest, hsamples, hnsz, hso, hchanging, hp⟩ := h
  rw [hsamples]
  refine ⟨hnsz, ⟨by rwa [← hnsz, ← hso], hchanging⟩, fun q hq => ?_⟩
  rw [← Option.some.inj hq]
  exact hp

/-- `nsz` is `so`: the loop is over. -/
theorem Taken.same {s : State} {P : Int × Nat → Prop} (h : Taken s P) (heq : s.nsz = s.so) :
    ∃ p rest, s.samples = p :: rest ∧ Changing rest ∧ outLenOf p.2 = soAfter rest := by
  obtain ⟨p, rest, hsamples, hnsz, hso, hchanging, -⟩ := h
  exact ⟨p, rest, hsamples, hchanging, by rw [← hnsz, ← hso, heq]⟩

/-- Leaving the loop by one of its tests is not early. -/
theorem Taken.leave {s t : State} {P : Int × Nat → Prop} (h : Taken s P)
    (hsamples : t.samples = s.samples) (hearly : ¬ Early t) :
    ∃ p rest, t.samples = p :: rest ∧ Changing rest ∧
      (Early t → outLenOf p.2 = soAfter rest) := by
  obtain ⟨p, rest, hs, -, -, hchanging, -⟩ := h
  exact ⟨p, rest, hsamples.trans hs, hchanging, fun he => absurd he hearly⟩

/-- **One step of `noout`.** -/
theorem Inv.next {to_ max rv : Int} {s t : State} (h : Inv to_ s)
    (hnext : next to_ max rv s = some t) : Inv to_ t := by
  have hat := h.at_
  have hspaced := h.spaced
  unfold At at hat
  unfold NoOut.next at hnext
  cases hs : s.pc <;> simp only [hs] at hat hnext
  case start =>
    cases hnext
    exact ⟨hspaced, hat, rfl⟩
  case first =>
    cases hnext
    refine ⟨?_, _, _, rfl, rfl, ?_, ?_, le_rfl⟩
    · simp [Spaced, State.sample, hat.1]
    · simp [State.sample, hat.1, hat.2, soAfter]
    · rw [hat.1]; trivial
  case msleep =>
    cases hnext
    refine ⟨hspaced, hat.mono fun p hp => ?_⟩
    omega
  case asleep wake =>
    split at hnext
    · next hwake =>
      cases hnext
      exact ⟨hspaced, hat.mono fun p hp => hp.trans hwake⟩
    · cases hnext
  case compare =>
    split at hnext
    · next hne =>
      cases hnext
      exact ⟨hspaced, hat.changed hne⟩
    · next heq =>
      cases hnext
      obtain ⟨p, rest, hsamples, hchanging, hlast⟩ := hat.same (not_not.mp heq)
      exact ⟨hspaced, p, rest, hsamples, hchanging, fun _ => hlast⟩
  case sample =>
    cases hnext
    obtain ⟨hso, hchanging, hdue⟩ := hat
    refine ⟨?_, _, _, rfl, rfl, hso, hchanging, le_rfl⟩
    exact List.isChain_cons.mpr ⟨fun p hp => hdue p hp, hspaced⟩
  case alive =>
    split at hnext
    · cases hnext
      exact ⟨hspaced, hat⟩
    · next halive =>
      cases hnext
      refine ⟨hspaced, hat.leave rfl fun he => halive ?_⟩
      exact he.alive s.alive (by simp)
  case tick =>
    split at hnext
    · cases hnext
      exact ⟨hspaced, hat⟩
    · next hlate =>
      cases hnext
      refine ⟨hspaced, hat.leave rfl fun he => hlate ?_⟩
      obtain ⟨tick, hpc, hlt⟩ := he.returned
      rwa [← Pc.returned.inj hpc] at hlt
  case hook =>
    split at hnext
    · cases hnext
      exact ⟨hspaced, hat⟩
    · next hhook =>
      cases hnext
      refine ⟨hspaced, hat.leave rfl fun he => hhook ?_⟩
      exact he.hook rv (by simp)
  case returned => cases hnext

theorem Inv.init (to_ : Int) (io : IoData) (tick : Int) (alive : Bool) :
    Inv to_ (NoOut.init io tick alive) := ⟨.nil, rfl⟩

theorem Inv.step {to_ max : Int} {s t : State} {a : Action} (h : Inv to_ s)
    (hstep : step to_ max s a = some t) : Inv to_ t := by
  rcases step_cases hstep with ⟨rv, -, hnext⟩ | ⟨-, io, ms, alive, rfl⟩
  · exact h.next hnext
  · exact h.pass io ms alive

/-! ## Every run -/

/-- A step puts on record whether its sample fits. -/
theorem step_allFit {to_ max : Int} {s t : State} {a : Action} (h : step to_ max s a = some t) :
    AllFit t.samples ↔ Sampled s a ∧ AllFit s.samples := by
  rcases step_cases h with ⟨rv, rfl, hnext⟩ | ⟨hsampled, io, ms, alive, rfl⟩
  · unfold next at hnext
    cases hs : s.pc <;> simp only [hs] at hnext
    case first | sample =>
      cases hnext
      simp [Sampled, State.sample, AllFit, hs]
    case returned => cases hnext
    case start | msleep => cases hnext; simp [Sampled, hs]
    case asleep | compare | alive | tick | hook =>
      split at hnext <;> cases hnext <;> simp [Sampled, hs]
  · exact (and_iff_right hsampled).symm

/-- **`noout` rested** in those of its early returns before which every sample
fitted. -/
theorem rested_iff (to_ max : Int) (io : IoData) (tick : Int) (alive : Bool) (acts : List Action)
    (t : State) (h : run (step to_ max) (init io tick alive) acts = some t) (hearly : Early t) :
    Rested to_ t.samples ↔ Meets (step to_ max) Sampled (init io tick alive) acts := by
  have hinv : Inv to_ t := run_invariant (fun _ _ _ hi hstep => hi.step hstep)
    (Inv.init to_ io tick alive) h
  have hrecord := run_records (G := fun s => AllFit s.samples)
    (fun _ _ _ hstep => step_allFit hstep) h
  rw [and_iff_left (show AllFit (init io tick alive).samples from trivial)] at hrecord
  rw [← hrecord]
  obtain ⟨tick', hpc, -⟩ := hearly.returned
  have hat := hinv.at_
  simp only [At, hpc] at hat
  obtain ⟨p, rest, hsamples, hchanging, hlast⟩ := hat
  have hspaced := hinv.spaced
  rw [hsamples] at hspaced ⊢
  exact rested_iff_allFit hspaced hchanging (hlast hearly)

/-- One byte is queued and nobody takes it: `noout` returns after 10 of 1000
milliseconds, with one sample. -/
theorem one_sample : ∃ t, run (step 10 1000) (init ⟨[], [0x41]⟩ 0 true)
    [.noout 0, .noout 0, .noout 0, .pass 10, .noout 0, .noout 0] = some t ∧
    Early t ∧ t.samples = [(0, 1)] ∧ ¬ Rested 10 t.samples := by
  refine ⟨⟨⟨[], [0x41]⟩, 10, true, .returned 10, 1000, 0, 0, [(0, 1)], [], []⟩, rfl,
    ⟨⟨10, rfl, by decide⟩, by simp, by simp⟩, rfl, ?_⟩
  intro ⟨post, q, p, pre, heq, _⟩
  have hlen := congrArg List.length heq
  simp only [List.length_append, List.length_cons, List.length_nil] at hlen
  omega

/-- One turn of the loop, from the end of a sleep to the next sleep. -/
def turn : List Action := List.replicate 7 (.noout 0)

/-- Two bytes are queued while `noout` sleeps for the first time, and drained while
it sleeps for the second. -/
def drainingRun : List Action :=
  [.noout 0, .noout 0, .noout 0, .pass 5, .putOut [0x41, 0x42], .pass 5] ++ turn ++
    [.getOut, .pass 10] ++ turn ++ [.pass 10] ++ turn ++ [.pass 10, .noout 0, .noout 0]

def drainedState : State :=
  ⟨⟨[], []⟩, 40, true, .returned 40, 1000, 1, 1, [(30, 0), (20, 0), (10, 2), (0, 0)],
    [true, true, true], [0, 0, 0]⟩

theorem rested_iff_draining : run (step 10 1000) (init ⟨[], []⟩ 0 true) drainingRun =
      some drainedState ∧ Rested 10 drainedState.samples ∧
    Meets (step 10 1000) Sampled (init ⟨[], []⟩ 0 true) drainingRun := by
  have hrested : Rested 10 drainedState.samples :=
    ⟨[], (30, 0), (20, 0), [(10, 2), (0, 0)], rfl, by decide, rfl⟩
  exact ⟨rfl, hrested, (rested_iff 10 1000 ⟨[], []⟩ 0 true drainingRun drainedState rfl
    ⟨⟨40, rfl, by decide⟩, by simp [drainedState], by simp [drainedState]⟩).mp hrested⟩

end Autocom.NoOut
