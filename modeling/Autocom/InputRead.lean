import Autocom.ExpectRuns

/-! # What `read` returns

`inLen` returns `!_in.length()`. With input pending, `read` therefore asks for
no bytes and fetches nothing; with none pending it makes its array of nulls. -/
namespace Autocom.InputRead
open Autocom Autocom.Lib.Lts Autocom.Machine
open Autocom.Expect (Regex Turn)
open Autocom.ExpectRuns (alone elsewhere_of_move settle_running)

/-- The script makes turns of its call, and the IO thread stores nothing that it
may have received. -/
structure Unfed (s : Sys) (a : Act) : Prop where
  alone : alone a = true
  silent : ∀ shot, s.io = .storing shot → a ≠ .io .step

/-- What `read` is for: the pending bytes in arrival order, and none are left. -/
structure ReadsAll (pending : Bytes) (ret : Ret) (d : Dev) : Prop where
  array : ret = .array (pending.map some)
  emptied : d.io.in_ = []

/-! ## Where the call can be -/

/-- With input pending the call passes `readLen` and makes an array for 0. -/
inductive ReadAt (pending : Bytes) (max : Int) : CallPc → Prop
  | test : ReadAt pending max (.readTest max)
  | len (hin : pending ≠ []) : ReadAt pending max .readLen
  | none (hin : pending ≠ []) : ReadAt pending max (.readMake 0)
  | nulls (hin : pending = []) : ReadAt pending max (.readMake max)
  | refused (hin : pending ≠ []) : ReadAt pending max (.ready (.array []))
  | padded (hin : pending = []) :
    ReadAt pending max (.ready (.array (List.replicate max.toNat .none)))

theorem ReadAt.ne_aborted {pending : Bytes} {max : Int} {pc : CallPc}
    (h : ReadAt pending max pc) : pc ≠ .aborted := by
  cases h <;> nofun

theorem readAt_turn {regex : Regex} {d d' : Dev} {pc pc' : CallPc} {t : Turn} {max : Int}
    (hmax : 0 < max) (h : ReadAt d.io.in_ max pc) (hturn : turnCall regex d t pc = some (d', pc')) :
    d'.io.in_ = d.io.in_ ∧ ReadAt d.io.in_ max pc' := by
  cases h with
  | test =>
    obtain ⟨rfl, rfl⟩ := Prod.mk.inj (Option.some.inj hturn)
    refine ⟨rfl, ?_⟩
    by_cases hin : d.io.in_ = []
    · rw [if_neg fun h => IoData.hasInput_iff.mp h hin]
      exact .nulls hin
    · rw [if_pos (IoData.hasInput_iff.mpr hin)]
      exact .len hin
  | len hin =>
    obtain ⟨rfl, rfl⟩ := Prod.mk.inj (Option.some.inj hturn)
    refine ⟨rfl, ?_⟩
    rw [if_pos (IoData.hasInput_iff.mpr hin)]
    exact .none hin
  | none hin =>
    obtain ⟨rfl, rfl⟩ := Prod.mk.inj (Option.some.inj hturn)
    exact ⟨rfl, .refused hin⟩
  | nulls hin =>
    have hpos : max ≠ 0 := by omega
    have hnonneg : ¬ max < 0 := by omega
    simp only [turnCall, Dev.drain_eq, if_neg hpos, if_neg hnonneg] at hturn
    obtain ⟨rfl, rfl⟩ := Prod.mk.inj (Option.some.inj hturn)
    refine ⟨hin.symm, ?_⟩
    rw [hin]
    exact .padded rfl
  | refused => cases hturn
  | padded => cases hturn

/-- The whole system during the call. -/
structure Reading (pending : Bytes) (max : Int) (s : Sys) : Prop where
  io : s.io ≠ .notifying .aborted
  kept : s.dev.io.in_ = pending
  script : ∃ pc, s.script = .running pc ∧ ReadAt pending max pc

theorem io_silent {regex : Regex} {d d' : Dev} {io io' : IoPc} {b : IoAct}
    (halone : alone (.io b) = true) (hsilent : ∀ shot, io = .storing shot → b ≠ .step)
    (h : IoMove regex d io b d' io') : d'.io.in_ = d.io.in_ := by
  cases h with
  | callback => cases halone
  | stored shot pc hpc => exact absurd rfl (hsilent shot rfl)
  | left d' hd => rcases hd with rfl | rfl <;> rfl
  | _ => rfl

theorem step_turn {regex : Regex} {d d' : Dev} {io : IoPc} {pc pc' : CallPc} {t : Turn}
    (hio : io ≠ .notifying .aborted) (hpc : pc' ≠ .aborted)
    (hturn : turnCall regex d t pc = some (d', pc')) :
    step regex ⟨d, .running pc, io⟩ (.script (.act (.turn t))) =
      some ⟨d', .running pc', io⟩ := by
  have hne : ScriptPc.running pc' ≠ .running .aborted :=
    fun heq => hpc (ScriptPc.running.inj heq)
  have hsettle : (Sys.mk d' (.running pc') io).settle = ⟨d', .running pc', io⟩ :=
    settle_eq hne hio
  simp only [step, scriptStep, callStep, hturn, Option.map_some, hsettle]

theorem reading_step {regex : Regex} {pending : Bytes} {max : Int} (hmax : 0 < max) (s : Sys)
    (a : Act) (t : Sys) (h : Reading pending max s) (hact : Unfed s a)
    (hstep : step regex s a = some t) : Reading pending max t := by
  obtain ⟨d, script, io⟩ := s
  obtain ⟨hio, rfl, pc, rfl, hpc⟩ := h
  obtain ⟨halone, hsilent⟩ := hact
  cases a with
  | io b =>
    obtain ⟨⟨d', io'⟩, hmove, rfl⟩ := Option.map_eq_some_iff.mp hstep
    have hmove' := ioStep_move hmove
    obtain ⟨-, hio'⟩ := elsewhere_of_move halone hmove'
    have hin : d'.io.in_ = d.io.in_ := by
      refine io_silent halone (fun shot hshot hb => ?_) hmove'
      exact hsilent shot hshot (hb ▸ rfl)
    have hne : ScriptPc.running pc ≠ .running .aborted :=
      fun heq => hpc.ne_aborted (ScriptPc.running.inj heq)
    rw [settle_eq hne hio']
    exact ⟨hio', hin, pc, rfl, hpc⟩
  | script b =>
    cases b with
    | act c =>
      cases c with
      | call c tick => cases halone
      | turn u =>
        obtain ⟨r, hmove, -⟩ := Option.map_eq_some_iff.mp hstep
        obtain ⟨⟨d', pc'⟩, hturn, -⟩ := Option.map_eq_some_iff.mp hmove
        obtain ⟨hin, hpc'⟩ := readAt_turn hmax hpc hturn
        obtain rfl := Option.some.inj (hstep.symm.trans (step_turn hio hpc'.ne_aborted hturn))
        exact ⟨hio, hin, pc', rfl, hpc'⟩
    | step => cases halone
    | started ok => cases halone
    | destroy => cases halone

/-! ## The call -/

/-- The script has just called `read(max)`. -/
def entered (d : Dev) (io : IoPc) (max : Int) : Sys := ⟨d, .running (.readTest max), io⟩

section
variable {regex : Regex} {d : Dev} {io : IoPc} {max : Int}

/-- **What `read` returns**: no element when input is pending, which stays
pending, and `max` nulls when there is none. -/
theorem run_read (hmax : 0 < max) (hio : io ≠ .notifying .aborted) {acts : List Act} {t : Sys}
    {r : Ret} (hm : Meets (step regex) Unfed (entered d io max) acts)
    (h : run (step regex) (entered d io max) acts = some t)
    (hret : t.script = .running (.ready r)) :
    t.dev.io.in_ = d.io.in_ ∧
      r = .array (if d.io.in_ = [] then List.replicate max.toNat none else []) := by
  have hstart : Reading d.io.in_ max (entered d io max) := ⟨hio, rfl, _, rfl, .test⟩
  obtain ⟨-, hin, pc, hscript, hpc⟩ := run_keeps (reading_step hmax) hstart hm h
  obtain rfl : pc = .ready r := ScriptPc.running.inj (hscript.symm.trans hret)
  refine ⟨hin, ?_⟩
  cases hpc with
  | refused hne => rw [if_neg hne]
  | padded hnil => rw [if_pos hnil]

def turn : Act := .script (.act (.turn ⟨0, 0, 0⟩))

theorem unfed_turns (s : Sys) (n : Nat) : Meets (step regex) Unfed s (List.replicate n turn) := by
  induction n generalizing s with
  | zero => trivial
  | succ n ih => exact ⟨⟨rfl, fun _ _ => nofun⟩, fun t _ => ih t⟩

/-- Turns of the script end the call, whatever the IO thread is doing. -/
theorem read_returns (regex : Regex) (d : Dev) (hmax : 0 < max) (hio : io ≠ .notifying .aborted) :
    ∃ n t r, run (step regex) (entered d io max) (List.replicate n turn) = some t ∧
      t.script = .running (.ready r) := by
  have hpos : max ≠ 0 := by omega
  have hnonneg : ¬ max < 0 := by omega
  by_cases hin : d.io.in_ = []
  · have htest : turnCall regex d ⟨0, 0, 0⟩ (.readTest max) = some (d, .readMake max) := by
      simp [turnCall, IoData.hasInput, hin]
    have hmake : turnCall regex d ⟨0, 0, 0⟩ (.readMake max) =
        some ((d.drain false).2, .ready (.array (readArray max (d.drain false).1))) := by
      simp only [turnCall, if_neg hpos, if_neg hnonneg]
    have h1 : step regex (entered d io max) turn = some ⟨d, .running (.readMake max), io⟩ :=
      step_turn hio (by simp) htest
    have h2 := step_turn hio (by simp) hmake
    exact ⟨2, _, _, run_cons.mpr ⟨_, h1, run_cons.mpr ⟨_, h2, rfl⟩⟩, rfl⟩
  · have htest : turnCall regex d ⟨0, 0, 0⟩ (.readTest max) = some (d, .readLen) := by
      simp [turnCall, IoData.hasInput, hin]
    have hlen : turnCall regex d ⟨0, 0, 0⟩ .readLen = some (d, .readMake 0) := by
      simp [turnCall, IoData.hasInput, hin]
    have hmake : turnCall regex d ⟨0, 0, 0⟩ (.readMake 0) = some (d, .ready (.array [])) := by
      simp [turnCall]
    have h1 : step regex (entered d io max) turn = some ⟨d, .running .readLen, io⟩ :=
      step_turn hio (by simp) htest
    have h2 := step_turn hio (by simp) hlen
    have h3 := step_turn hio (by simp) hmake
    exact ⟨3, _, _, run_cons.mpr ⟨_, h1, run_cons.mpr ⟨_, h2, run_cons.mpr ⟨_, h3, rfl⟩⟩⟩, rfl⟩

end

/-- **`read` never does what it is for.** From every state, with any input
pending or none, a call of `read(max)` that is left alone returns, and whenever
it has returned it has not handed over what was pending. -/
theorem read_never_reads {regex : Regex} {d : Dev} {io : IoPc} {max : Int} (ret : Ret) (tick : Int)
    (hmax : 0 < max) (hio : io ≠ .notifying .aborted) :
    ∃ s, step regex ⟨d, .running (.ready ret), io⟩ (.script (.act (.call (.read max) tick))) =
        some s ∧
      (∃ acts t r, Meets (step regex) Unfed s acts ∧ run (step regex) s acts = some t ∧
        t.script = .running (.ready r)) ∧
      ∀ acts t r, Meets (step regex) Unfed s acts → run (step regex) s acts = some t →
        t.script = .running (.ready r) → ¬ ReadsAll d.io.in_ r t.dev := by
  have hsettle : (entered d io max).settle = entered d io max := settle_eq nofun hio
  refine ⟨entered d io max, congrArg some hsettle, ?_, ?_⟩
  · obtain ⟨n, t, r, hrun, hret⟩ := read_returns regex d hmax hio
    exact ⟨_, t, r, unfed_turns _ n, hrun, hret⟩
  · intro acts t r hm hrun hret hreads
    obtain ⟨hkept, hr⟩ := run_read hmax hio hm hrun hret
    have hnil : d.io.in_ = [] := hkept.symm.trans hreads.emptied
    -- nothing was pending, and the array is full of nulls
    rw [if_pos hnil] at hr
    have harray := Ret.array.inj (hr.symm.trans hreads.array)
    rw [hnil, List.map_nil, List.replicate_eq_nil_iff] at harray
    omega

/-- The byte `A` is pending. -/
def pendingA : Dev := { Dev.init none with io := ⟨[0x41], []⟩ }

/-- `read(16)` returns the empty array. -/
theorem read_drops_pending : ∃ t, run (step fun _ => none) (entered pendingA .loop 16)
      (List.replicate 3 turn) = some t ∧ t.script = .running (.ready (.array [])) ∧
    ¬ ReadsAll pendingA.io.in_ (.array []) t.dev :=
  ⟨_, rfl, rfl, fun h => absurd h.array (by decide)⟩

theorem read_never_reads_A :
    ∃ s, step (fun _ => none) ⟨pendingA, .running (.ready .void), .loop⟩
        (.script (.act (.call (.read 16) 0))) = some s ∧
      (∃ acts t r, Meets (step fun _ => none) Unfed s acts ∧
        run (step fun _ => none) s acts = some t ∧ t.script = .running (.ready r)) ∧
      ∀ acts t r, Meets (step fun _ => none) Unfed s acts →
        run (step fun _ => none) s acts = some t →
        t.script = .running (.ready r) → ¬ ReadsAll [0x41] r t.dev :=
  read_never_reads .void 0 (by decide) (by nofun)

end Autocom.InputRead
