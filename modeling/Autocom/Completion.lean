import Autocom.CallFrame

/-! # When a write can complete

`_waitCompletion` waits until the queue is empty and never looks at `_ended`.
Only the IO thread empties the queue, in its loop, so a write completes as long
as that thread comes round to `getOut` again. It does not once it has left the
loop, once it is about to use a closed port, and while a callback it runs is in
`_waitCompletion` itself or in a wait without end: that wait puts its deadline
10 s ahead in every turn, and nothing is received as long as it runs. -/
namespace Autocom.Completion
open Autocom Autocom.Lib.Lts Autocom.Machine
open Autocom.Expect (Regex Turn)

/-! ## The property -/

/-- Inside the `while` of `thread_main`. -/
def inLoop : IoPc → Bool
  | .loop | .poll | .fetch | .calling _ | .sending _ _ | .receiving | .storing _
  | .notifying _ => true
  | _ => false

/-- The deadline of a wait that moves it along in every turn. -/
def movingDeadline : CallPc → Option Int
  | .any expire true _ => some expire
  | .strwaitt _ expire true _ => some expire
  | .binwaitt _ _ expire true => some expire
  | _ => none

/-- A step that the IO thread takes by itself: the waiting hook, if asked, is
absent, and the clock does not run into a deadline that moves along. -/
def Own (s : Sys) : Act → Prop
  | .io (.callback (.turn t)) => t.hook = 0 ∧
      ∀ pc expire, s.io = .notifying pc → movingDeadline pc = some expire → t.tick < expire
  | .io _ => True
  | .script _ => False

/-- Some run of the IO thread alone empties the queue, or ends the process by an
exception in a callback. -/
def CanDrain (regex : Regex) (s : Sys) : Prop :=
  ∃ acts t, Meets (step regex) Own s acts ∧ run (step regex) s acts = some t ∧
    (t.dev.io.out_ = [] ∨ t.io = .gone)

/-- The script is in `_waitCompletion` and bytes are queued. -/
def Waiting (s : Sys) : Prop := (∃ k, s.script = .running (.completing k)) ∧ s.dev.io.out_ ≠ []

/-- While `__alive`, output the script waits for can be drained. -/
def CanComplete (regex : Regex) (s : Sys) : Prop :=
  s.dev.progAlive = true → Waiting s → inLoop s.io = true ∧ CanDrain regex s

/-! ## The condition -/

/-- The IO thread is on its way round to `getOut`. -/
def comesRound (port : Option Bool) : IoPc → Bool
  | .loop | .poll | .fetch | .storing _ => true
  | .calling _ | .sending _ _ | .receiving => port == some true
  | .notifying (.completing _) | .notifying .aborted => false
  | .notifying pc => (movingDeadline pc).isNone
  | _ => false

/-- The call is a wait with a timeout of -1. -/
def waitsForEver (tout : Int) : Call → Bool
  | .any to_ => to_ == -1
  | .strwaitt _ to_ | .binwaitt _ _ to_ => to_.getD tout == -1
  | _ => false

/-- The script queues output only for an IO thread that comes round. While the
script waits, no `sendTo` or `recFrom` returns -1 and no callback writes or starts
a wait without end. -/
def Serves (s : Sys) (a : Act) : Prop :=
  s.dev.progAlive = true →
  match a with
  | .script (.act (.call c _)) => ∀ bs, c.output s.dev.eol = some bs →
      s.dev.io.out_ ++ bs ≠ [] → comesRound s.dev.pc s.io = true
  | .io (.sent rv) => rv = -1 → ¬ Waiting s
  | .io (.received shot) => shot = none → ¬ Waiting s
  | .io (.callback (.call c _)) => (∀ bs, c.output s.dev.eol = some bs →
      s.dev.io.out_ ++ bs ≠ [] → ¬ ∃ k, s.script = .running (.completing k)) ∧
      (waitsForEver s.dev.tout c = true → ¬ Waiting s)
  | _ => True

/-! ## The IO thread comes round -/

theorem CanDrain.of_empty {regex : Regex} {s : Sys} (h : s.dev.io.out_ = []) :
    CanDrain regex s :=
  ⟨[], s, trivial, rfl, .inl h⟩

theorem CanDrain.step {regex : Regex} {s t : Sys} {a : Act} (hown : Own s a)
    (hstep : Machine.step regex s a = some t) (h : CanDrain regex t) : CanDrain regex s := by
  obtain ⟨acts, u, hacts, hrun, hu⟩ := h
  exact ⟨a :: acts, u, meets_cons hown hstep hacts, run_cons.mpr ⟨t, hstep, hrun⟩, hu⟩

section
variable {regex : Regex} {k : Next}

/-- The state with the script in `_waitCompletion`. -/
abbrev atWait (d : Dev) (k : Next) (io : IoPc) : Sys := ⟨d, .running (.completing k), io⟩

theorem canDrain_fetch (d : Dev) : CanDrain regex (atWait d k .fetch) := by
  refine .step (a := .io .step)
    (t := atWait { d with io := { d.io with out_ := [] } } k (.calling d.io.out_)) trivial ?_
    (.of_empty rfl)
  simp [step, ioStep, IoData.getOut_eq, Sys.settle]

theorem canDrain_poll (d : Dev) : CanDrain regex (atWait d k .poll) := by
  by_cases hout : d.io.out_ = []
  · exact .of_empty hout
  · refine .step (a := .io .step) (t := atWait d k .fetch) trivial ?_ (canDrain_fetch d)
    simp [step, ioStep, IoData.hasOutput, hout, Sys.settle]

theorem canDrain_loop {d : Dev} (halive : d.alive = true) : CanDrain regex (atWait d k .loop) := by
  refine .step (a := .io .step) (t := atWait d k .poll) trivial ?_ (canDrain_poll d)
  simp [step, ioStep, halive, Sys.settle]

/-- The callback at `pc` returns or dies, whatever the buffers hold. -/
def Returns (regex : Regex) (k : Next) (pc : CallPc) : Prop :=
  ∀ d : Dev, d.alive = true → CanDrain regex (atWait d k (.notifying pc))

/-- A turn of a callback, then whatever follows. -/
theorem CanDrain.turn {d e : Dev} {t : Turn} {pc q : CallPc} (halive : d.alive = true)
    (hhook : t.hook = 0) (hends : movingDeadline pc = none)
    (hturn : turnCall regex d t pc = some (e, q)) (h : q = .aborted ∨ Returns regex k q) :
    CanDrain regex (atWait d k (.notifying pc)) := by
  have hown : Own (atWait d k (.notifying pc)) (.io (.callback (.turn t))) := by
    refine ⟨hhook, fun pc' expire hpc hmoving => ?_⟩
    cases hpc
    rw [hends] at hmoving
    cases hmoving
  have hstep : Machine.step regex (atWait d k (.notifying pc)) (.io (.callback (.turn t))) =
      some (atWait e k (.notifying q)).settle := by
    simp [Machine.step, ioStep, callStep, hturn]
  by_cases habort : q = .aborted
  · subst habort
    exact ⟨[.io (.callback (.turn t))], _, meets_cons hown hstep trivial,
      run_cons.mpr ⟨_, hstep, rfl⟩, .inr rfl⟩
  · have hnext := (h.resolve_left habort) e ((turnCall_effect hturn).alive.trans halive)
    have hsettle : (atWait e k (.notifying q)).settle = atWait e k (.notifying q) := by
      cases q with
      | aborted => exact absurd rfl habort
      | _ => rfl
    exact .step hown (hstep.trans (congrArg some hsettle)) hnext

/-- The turn that finds the clock at `tick`. -/
def turnAt (tick : Int) : Turn := ⟨tick, 0, tick⟩

theorem returns_ready (ret : Ret) : Returns regex k (.ready ret) :=
  fun _ halive => .step (a := .io .step) trivial rfl (canDrain_loop halive)

theorem returns_gets (query : Option (Nat × Nat)) : Returns regex k (.gets query) := by
  intro d halive
  cases query with
  | none => exact .turn (t := turnAt 0) halive rfl rfl rfl (.inr (returns_ready _))
  | some q => exact .turn (t := turnAt 0) halive rfl rfl rfl (.inr (returns_ready _))

theorem returns_readMake (max : Int) : Returns regex k (.readMake max) := by
  intro d halive
  by_cases hzero : max = 0
  · subst hzero
    exact .turn (t := turnAt 0) halive rfl rfl rfl (.inr (returns_ready _))
  · by_cases hneg : max < 0
    · refine .turn (t := turnAt 0) (e := d) (q := .aborted) halive rfl rfl ?_ (.inl rfl)
      simp [turnCall, hzero, hneg]
    · refine .turn (t := turnAt 0) (e := (d.drain false).2)
        (q := .ready (.array (readArray max (d.drain false).1))) halive rfl rfl ?_
        (.inr (returns_ready _))
      simp [turnCall, hzero, hneg]

theorem returns_readTest (max : Int) : Returns regex k (.readTest max) := by
  intro d halive
  refine .turn (t := turnAt 0) halive rfl rfl rfl (.inr ?_)
  split
  · intro d' halive'
    exact .turn (t := turnAt 0) halive' rfl rfl rfl (.inr (returns_readMake _))
  · exact returns_readMake max

theorem returns_anyEnd (tail : Tail) : Returns regex k (.anyEnd tail) := by
  intro d halive
  cases tail with
  | done => exact .turn (t := turnAt 0) halive rfl rfl rfl (.inr (returns_ready _))
  | gets mark held => exact .turn (t := turnAt 0) halive rfl rfl rfl (.inr (returns_gets _))
  | read => exact .turn (t := turnAt 0) halive rfl rfl rfl (.inr (returns_readTest _))

theorem returns_strwaitt (expr : CString) (expire : Int) (fetch : Bool) :
    Returns regex k (.strwaitt expr expire false fetch) := by
  have hlate : Returns regex k (.strwaitt expr expire false false) := by
    intro d halive
    refine .turn (t := turnAt expire) (e := d) (q := .ready (.int 1)) halive rfl rfl ?_
      (.inr (returns_ready _))
    simp [turnCall, Turn.go, turnAt]
  cases fetch with
  | false => exact hlate
  | true =>
    intro d halive
    cases hbody : Expect.strwaittBody regex expr d.accum d.io.in_ with
    | found accum =>
      refine .turn (t := turnAt 0) (e := { (d.drain true).2 with accum := accum })
        (q := .ready (.int 0)) halive rfl rfl ?_ (.inr (returns_ready _))
      simp [turnCall, Dev.drain_eq, hbody]
    | more accum =>
      refine .turn (t := turnAt 0) (e := { (d.drain true).2 with accum := accum })
        (q := .strwaitt expr expire false false) halive rfl rfl ?_ (.inr hlate)
      simp [turnCall, Dev.drain_eq, hbody]
    | thrown =>
      refine .turn (t := turnAt 0) (e := (d.drain true).2) (q := .aborted) halive rfl rfl ?_
        (.inl rfl)
      simp [turnCall, Dev.drain_eq, hbody]

theorem returns_strstr (strings : List CString) (expire : Int) (fetch : Bool) :
    Returns regex k (.strstr strings expire fetch) := by
  have hlate : ∀ expire : Int, Returns regex k (.strstr strings expire false) := by
    intro expire d halive
    refine .turn (t := turnAt expire) (e := d) (q := .ready (.text d.strstrRet)) halive rfl rfl ?_
      (.inr (returns_ready _))
    simp [turnCall, Turn.go, turnAt]
  cases fetch with
  | false => exact hlate expire
  | true =>
    intro d halive
    obtain ⟨⟨hit, trunc⟩, hbody⟩ : ∃ r, Expect.strstrBody strings d.accum d.io.in_ = r := ⟨_, rfl⟩
    cases trunc with
    | some accum =>
      refine .turn (t := turnAt 0) (e := { (d.drain true).2 with
          accum := accum, strstrRet := (hit.map CString.bytes).getD d.strstrRet })
        (q := .strstr strings (if hit.isSome then 0 else expire) false) halive rfl rfl ?_
        (.inr (hlate _))
      simp [turnCall, Dev.drain_eq, hbody, turnAt]
    | none =>
      refine .turn (t := turnAt 0) (e := { (d.drain true).2 with
          strstrRet := (hit.map CString.bytes).getD d.strstrRet }) (q := .aborted) halive rfl rfl ?_
        (.inl rfl)
      simp [turnCall, Dev.drain_eq, hbody]

/-- **A callback returns** that is in neither `_waitCompletion` nor a wait without
end. -/
theorem returns_of_comesRound {port : Option Bool} {pc : CallPc}
    (hround : comesRound port (.notifying pc) = true) : Returns regex k pc := by
  intro d halive
  cases pc with
  | ready ret => exact returns_ready ret d halive
  | completing next => cases hround
  | aborted => cases hround
  | any expire infinite tail =>
    obtain rfl : infinite = false := by cases infinite <;> first | rfl | cases hround
    refine .turn (t := turnAt expire) (e := d) (q := .anyEnd tail) halive rfl rfl ?_
      (.inr (returns_anyEnd tail))
    simp [turnCall, turnAt]
  | anyEnd tail => exact returns_anyEnd tail d halive
  | gets query => exact returns_gets query d halive
  | readTest max => exact returns_readTest max d halive
  | readLen => exact .turn (t := turnAt 0) halive rfl rfl rfl (.inr (returns_readMake _))
  | readMake max => exact returns_readMake max d halive
  | strwaitt expr expire infinite fetch =>
    obtain rfl : infinite = false := by cases infinite <;> first | rfl | cases hround
    exact returns_strwaitt expr expire fetch d halive
  | strstr strings expire fetch => exact returns_strstr strings expire fetch d halive
  | binwaitt needle sz expire infinite =>
    obtain rfl : infinite = false := by cases infinite <;> first | rfl | cases hround
    refine .turn (t := turnAt expire) (e := d) (q := .ready (.int 1)) halive rfl rfl ?_
      (.inr (returns_ready _))
    simp [turnCall, Turn.go, turnAt]

/-- **An IO thread that comes round drains the queue.** -/
theorem canDrain_of_comesRound {d : Dev} {io : IoPc} (halive : d.alive = true)
    (hround : comesRound d.pc io = true) : CanDrain regex (atWait d k io) := by
  have hreceiving : ∀ d : Dev, d.alive = true → d.pc = some true →
      CanDrain regex (atWait d k .receiving) := by
    intro d halive hpc
    refine .step (a := .io (.received (some []))) (t := atWait d k .loop) trivial ?_
      (canDrain_loop halive)
    simp [step, ioStep, hpc, Sys.settle]
  have hsending : ∀ (d : Dev) (temp left : Bytes), d.alive = true → d.pc = some true →
      CanDrain regex (atWait d k (.sending temp left)) := by
    intro d temp left halive hpc
    refine .step (a := .io (.wrote left.length)) (t := atWait { d with
      log := { d.log with wire := d.log.wire ++ left } } k (.sending temp [])) trivial ?_ ?_
    · simp [step, ioStep, Sys.settle]
    · exact .step (a := .io (.sent 0)) trivial rfl (hreceiving _ halive hpc)
  cases io with
  | loop => exact canDrain_loop halive
  | poll => exact canDrain_poll d
  | fetch => exact canDrain_fetch d
  | calling temp =>
    have hpc : d.pc = some true := beq_iff_eq.mp hround
    refine .step (a := .io .step) (t := atWait d k (.sending temp temp)) trivial ?_
      (hsending d temp temp halive hpc)
    simp [step, ioStep, hpc, Sys.settle]
  | sending temp left => exact hsending d temp left halive (beq_iff_eq.mp hround)
  | receiving => exact hreceiving d halive (beq_iff_eq.mp hround)
  | storing shot =>
    by_cases hproc : d.outproc = []
    · refine .step (a := .io .step) (t := atWait { d with
        io := d.io.putIn shot, log := { d.log with stored := d.log.stored ++ shot } } k .loop)
        trivial ?_ (canDrain_loop halive)
      simp [step, ioStep, hproc, Sys.settle]
    · refine .step (a := .io .step) (t := atWait { d with
        io := d.io.putIn shot, log := { d.log with stored := d.log.stored ++ shot } } k
        (.notifying (.ready .void))) trivial ?_ (returns_ready _ _ halive)
      simp [step, ioStep, hproc, Sys.settle]
  | notifying pc => exact returns_of_comesRound hround d halive
  | absent | opening | entering | closing | leaving | ending | ended | gone => cases hround

end

/-! ## The invariant -/

structure Inv (s : Sys) : Prop where
  unstarted : Unstarted s
  starting : s.script = .starting ∨ s.script = .ctorWait → s.dev.alive = true
  running : ∀ pc, s.script = .running pc → s.io = .absent ∨ s.dev.alive = true
  serves : s.dev.progAlive = true → Waiting s → comesRound s.dev.pc s.io = true

theorem inLoop_of_comesRound {port : Option Bool} {io : IoPc} (h : comesRound port io = true) :
    inLoop io = true := by
  cases io with
  | absent | opening | entering | closing | leaving | ending | ended | gone => cases h
  | _ => rfl

theorem Inv.canComplete {regex : Regex} {s : Sys} (h : Inv s) : CanComplete regex s := by
  intro hprog hwait
  have hround := h.serves hprog hwait
  obtain ⟨dev, sc, io⟩ := s
  obtain ⟨⟨k, rfl⟩, -⟩ := hwait
  refine ⟨inLoop_of_comesRound hround, ?_⟩
  rcases h.running _ rfl with rfl | halive
  · cases hround
  · exact canDrain_of_comesRound halive hround

/-- A step of the IO thread, with the script thread where it was. -/
theorem Inv.io_step {s : Sys} (h : Inv s) {d : Dev} {pc : IoPc} (hrun : s.io ≠ .absent)
    (halive : d.alive = s.dev.alive)
    (hserves : d.progAlive = true → Waiting ⟨d, s.script, pc⟩ → comesRound d.pc pc = true) :
    Inv ⟨d, s.script, pc⟩ := by
  refine ⟨fun hearly => absurd (h.unstarted hearly) hrun, ?_, ?_, hserves⟩
  · intro hstarting
    exact halive.trans (h.starting hstarting)
  · intro pc hpc
    exact .inr (halive.trans ((h.running pc hpc).resolve_left hrun))

/-- A step of the script thread after which it does not wait for output. -/
theorem Inv.script_step {d : Dev} {sc : ScriptPc} {io : IoPc}
    (hunstarted : Unstarted ⟨d, sc, io⟩)
    (hstarting : sc = .starting ∨ sc = .ctorWait → d.alive = true)
    (hrunning : ∀ pc, sc = .running pc → io = .absent ∨ d.alive = true)
    (hquiet : ∀ k, sc ≠ .running (.completing k)) : Inv ⟨d, sc, io⟩ :=
  ⟨hunstarted, hstarting, hrunning, fun _ hwait => absurd hwait.1.choose_spec (hquiet _)⟩

theorem comesRound_notifying {port : Option Bool} {pc : CallPc} (habort : pc ≠ .aborted)
    (hcompleting : ∀ k, pc ≠ .completing k) (hmoving : movingDeadline pc = none) :
    comesRound port (.notifying pc) = true := by
  cases pc with
  | aborted => exact absurd rfl habort
  | completing k => exact absurd rfl (hcompleting k)
  | any | strwaitt | binwaitt => exact Option.isNone_iff_eq_none.mpr hmoving
  | _ => rfl

theorem movingDeadline_of_comesRound {port : Option Bool} {pc : CallPc}
    (h : comesRound port (.notifying pc) = true) : movingDeadline pc = none := by
  cases pc with
  | any | strwaitt | binwaitt => exact Option.isNone_iff_eq_none.mp h
  | _ => rfl

/-! ## Where a wait without end begins -/

/-- A wait moves its deadline along for one timeout only. -/
theorem eq_of_moves {tick to_ expire : Int} (pc : Int → Bool → CallPc)
    (hfixed : ∀ expire, movingDeadline (pc expire false) = none)
    (h : movingDeadline (pc (deadline tick to_).1 (deadline tick to_).2) = some expire) :
    (to_ == -1) = true := by
  by_contra hfinite
  have hne : to_ ≠ -1 := fun heq => hfinite (beq_iff_eq.mpr heq)
  rw [deadline, if_neg hne, hfixed] at h
  cases h

theorem startCall_endless {d : Dev} {tick expire : Int} {c : Call}
    (h : movingDeadline (startCall d tick c).2 = some expire) :
    waitsForEver d.tout c = true ∧ (startCall d tick c).1.io = d.io := by
  cases c with
  | any to_ => exact ⟨eq_of_moves (.any · · .done) (fun _ => rfl) h, rfl⟩
  | strwaitt expr to_ => exact ⟨eq_of_moves (.strwaitt expr · · false) (fun _ => rfl) h, rfl⟩
  | binwaitt a stack to_ =>
    by_cases hfits : fits a = true
    · simp only [startCall, hfits, if_true] at h
      exact ⟨eq_of_moves (.binwaitt (cstr (a ++ stack)) a.length · ·) (fun _ => rfl) h,
        by simp [startCall, hfits]⟩
    · simp [startCall, hfits, movingDeadline] at h
  | writeArray | writereadArray | settimeout | close =>
    simp only [startCall] at h
    split at h <;> cases h
  | _ => cases h

/-- A turn is in a wait without end only if the wait was there, or was to follow a
write. -/
theorem turnCall_endless {regex : Regex} {d d' : Dev} {t : Turn} {pc pc' : CallPc} {expire : Int}
    (h : turnCall regex d t pc = some (d', pc')) (hmoving : movingDeadline pc' = some expire) :
    (∃ k, pc = .completing k) ∨ ∃ expire, movingDeadline pc = some expire := by
  cases pc with
  | completing k => exact .inl ⟨k, rfl⟩
  | any old infinite k =>
    cases infinite with
    | true => exact .inr ⟨old, rfl⟩
    | false =>
      simp only [turnCall] at h
      split at h <;> cases h <;> cases hmoving
  | strwaitt expr old infinite fetch =>
    cases infinite with
    | true => exact .inr ⟨old, rfl⟩
    | false =>
      cases fetch <;> simp only [turnCall] at h <;> split at h <;> cases h <;> cases hmoving
  | binwaitt needle sz old infinite =>
    cases infinite with
    | true => exact .inr ⟨old, rfl⟩
    | false =>
      simp only [turnCall] at h
      split at h
      · split at h <;> cases h <;> cases hmoving
      · cases h; cases hmoving
  | ready | aborted => cases h
  | anyEnd k => cases k <;> cases h <;> cases hmoving
  | gets query => cases query <;> cases h <;> cases hmoving
  | readTest max =>
    simp only [turnCall] at h
    split at h <;> cases h <;> cases hmoving
  | readLen => cases h; cases hmoving
  | readMake max =>
    simp only [turnCall] at h
    split at h
    · cases h; cases hmoving
    · split at h <;> cases h <;> cases hmoving
  | strstr strings old fetch =>
    cases fetch <;> simp only [turnCall] at h <;> split at h <;> cases h <;> cases hmoving

/-- **Where a wait without end comes from.** The step queues nothing. -/
theorem callStep_endless {regex : Regex} {d d' : Dev} {pc pc' : CallPc} {a : CallAct}
    {expire : Int} (h : callStep regex d pc a = some (d', pc'))
    (hmoving : movingDeadline pc' = some expire) : d'.io.out_ = d.io.out_ ∧
      ((∃ k, pc = .completing k) ∨ (∃ expire, movingDeadline pc = some expire) ∨
        ∃ c tick, a = .call c tick ∧ waitsForEver d.tout c = true) := by
  cases a with
  | turn t =>
    refine ⟨(turnCall_frame h).out, ?_⟩
    rcases turnCall_endless h hmoving with hk | hold
    · exact .inl hk
    · exact .inr (.inl hold)
  | call c tick =>
    cases pc with
    | ready ret =>
      have hstart : startCall d tick c = (d', pc') := Option.some.inj h
      have hpc : movingDeadline (startCall d tick c).2 = some expire := by
        rw [hstart]; exact hmoving
      obtain ⟨hfor, hio⟩ := startCall_endless hpc
      rw [hstart] at hio
      exact ⟨congrArg IoData.out_ hio, .inr (.inr ⟨c, tick, rfl, hfor⟩)⟩
    | _ => cases h

/-- A step of a callback. -/
theorem Inv.callback {regex : Regex} {dev d : Dev} {sc : ScriptPc} {pc pc' : CallPc}
    {a : CallAct} (h : Inv ⟨dev, sc, .notifying pc⟩)
    (hserves : Serves ⟨dev, sc, .notifying pc⟩ (.io (.callback a)))
    (hcall : callStep regex dev pc a = some (d, pc')) (habort : pc' ≠ .aborted) :
    Inv ⟨d, sc, .notifying pc'⟩ := by
  have heffect := callStep_effect hcall
  refine h.io_step nofun heffect.alive ?_
  intro hprog hwait
  have hprog' : dev.progAlive = true := heffect.progAlive hprog
  refine comesRound_notifying habort ?_ ?_
  · rintro k rfl
    rcases callStep_completing hcall with ⟨rfl, rfl⟩ | ⟨c, tick, bs, rfl, hout, rfl⟩
    · cases h.serves hprog' hwait
    · exact (hserves hprog').1 bs hout hwait.2 hwait.1
  · cases hmoving : movingDeadline pc' with
    | none => rfl
    | some expire =>
      exfalso
      obtain ⟨hout, hfrom⟩ := callStep_endless hcall hmoving
      have hbefore : Waiting ⟨dev, sc, .notifying pc⟩ :=
        ⟨hwait.1, fun hnil => hwait.2 (hout.trans hnil)⟩
      have hround := h.serves hprog' hbefore
      rcases hfrom with ⟨k, rfl⟩ | ⟨old, hold⟩ | ⟨c, tick, rfl, hfor⟩
      · cases hround
      · rw [movingDeadline_of_comesRound hround] at hold
        cases hold
      · exact (hserves hprog').2 hfor hbefore

/-- A step of a call of the script. -/
theorem Inv.call {regex : Regex} {dev d : Dev} {io : IoPc} {pc pc' : CallPc} {a : CallAct}
    (h : Inv ⟨dev, .running pc, io⟩) (hserves : Serves ⟨dev, .running pc, io⟩ (.script (.act a)))
    (hcall : callStep regex dev pc a = some (d, pc')) : Inv ⟨d, .running pc', io⟩ := by
  have heffect := callStep_effect hcall
  refine ⟨unstarted_of_late rfl, nofun, ?_, ?_⟩
  · intro _ _
    exact (h.running pc rfl).imp id fun halive => heffect.alive.trans halive
  · rintro hprog ⟨⟨k, hk⟩, hout⟩
    cases hk
    have hprog' : dev.progAlive = true := heffect.progAlive hprog
    rcases callStep_completing hcall with ⟨rfl, rfl⟩ | ⟨c, tick, bs, rfl, houtput, rfl⟩
    · exact h.serves hprog' ⟨⟨k, rfl⟩, hout⟩
    · exact hserves hprog' bs houtput hout

/-- **One step** that serves the queue. -/
theorem step_inv {regex : Regex} {s t : Sys} {a : Act} (h : Inv s) (hserves : Serves s a)
    (hstep : step regex s a = some t) : Inv t := by
  refine step_induct (Q := fun u => u.io ≠ .notifying .aborted → Inv u) ?_ ?_ ?_ hstep
    (step_io_ne hstep)
  · intro u _ _
    exact .script_step (unstarted_of_late rfl) nofun nofun nofun
  · intro b d pc hb hmove habort
    obtain ⟨dev, sc, io⟩ := s
    have hrun := hmove.ran.1
    cases hmove with
    | opened | refused | enter | closed | ended =>
      refine h.io_step hrun rfl fun hprog hwait => ?_
      cases h.serves hprog hwait
    | left d' hd =>
      rcases hd with rfl | rfl
      · refine h.io_step hrun rfl fun hprog hwait => ?_
        cases h.serves hprog hwait
      · refine h.io_step hrun rfl fun hprog hwait => ?_
        cases h.serves hprog hwait
    | stop halive =>
      refine h.io_step hrun rfl fun hprog hwait => ?_
      obtain ⟨k, hk⟩ := hwait.1
      rcases h.running _ hk with hio | htrue
      · cases hio
      · simp only at htrue
        rw [halive] at htrue; cases htrue
    | silent hout => exact h.io_step hrun rfl fun _ hwait => absurd hout hwait.2
    | fetch => exact h.io_step hrun rfl fun _ hwait => absurd rfl hwait.2
    | unsendable temp hpc =>
      refine h.io_step hrun rfl fun hprog hwait => ?_
      exact absurd (beq_iff_eq.mp (h.serves hprog hwait)) hpc
    | sendFailed =>
      subst hb
      exact h.io_step hrun rfl fun hprog hwait => absurd hwait (hserves hprog rfl)
    | lost =>
      subst hb
      exact h.io_step hrun rfl fun hprog hwait => absurd hwait (hserves hprog rfl)
    | stored shot pc hpc =>
      rcases hpc with rfl | rfl
      · exact h.io_step hrun rfl fun _ _ => rfl
      · exact h.io_step hrun rfl fun _ _ => rfl
    | callback pc pc' a d' hcall =>
      subst hb
      exact h.callback hserves hcall fun heq => habort (heq ▸ rfl)
    | sendTo | wrote | sentAll | timedOut =>
      exact h.io_step hrun rfl fun hprog hwait => h.serves hprog hwait
    | _ => exact h.io_step hrun rfl fun _ _ => rfl
  · intro b d pc io hb hmove _
    obtain ⟨dev, sc, io₀⟩ := s
    cases hmove with
    | construct cred htty =>
      exact .script_step (fun _ => h.unstarted rfl) (fun _ => rfl) nofun nofun
    | portless cred htty =>
      exact .script_step (unstarted_of_late rfl) nofun (fun _ _ => .inl (h.unstarted rfl)) nofun
    | started =>
      have halive := h.starting (.inl rfl)
      exact .script_step (unstarted_of_late rfl) (fun _ => halive) nofun nofun
    | constructed =>
      have halive := h.starting (.inr rfl)
      exact .script_step (unstarted_of_late rfl) nofun (fun _ _ => .inr halive) nofun
    | waiting => exact h
    | call pc pc' a d' hcall =>
      subst hb
      exact h.call hserves hcall
    | _ => exact .script_step (unstarted_of_late rfl) nofun nofun nofun

/-- **A write can always complete while every step serves the queue.** -/
theorem canComplete_of_serves (regex : Regex) (cred : CString) (proc : Option CString)
    (acts : List Act) (h : Meets (step regex) Serves (Sys.init cred proc) acts) :
    Along (step regex) (CanComplete regex) (Sys.init cred proc) acts := by
  have hinit : Inv (Sys.init cred proc) :=
    .script_step (fun _ => rfl) (by rintro (hs | hs) <;> cases hs) nofun nofun
  exact along_of_keeps (I := Inv) (fun _ hs => hs.canComplete)
    (fun _ _ _ hs hserves hst => step_inv hs hserves hst) hinit h

/-! ## Writes that block -/

/-- **Nothing gets a callback out of `any(-1)`** while nothing is received, and the
IO thread that would receive it is the one that waits. -/
theorem any_blocks (regex : Regex) {d : Dev} {k : Next} (expire : Int) (tail : Tail)
    (hprog : d.progAlive = true) (hin : d.io.in_ = []) (hout : d.io.out_ ≠ []) :
    ¬ CanDrain regex (atWait d k (.notifying (.any expire true tail))) := by
  rintro ⟨acts, t, hown, hrun, hdrained⟩
  have hstays : ∃ expire, t = atWait d k (.notifying (.any expire true tail)) := by
    refine run_keeps (I := fun s => ∃ expire, s = atWait d k (.notifying (.any expire true tail)))
      ?_ ⟨expire, rfl⟩ hown hrun
    rintro s a u ⟨old, rfl⟩ hturn hstep
    cases a with
    | script b => cases hturn
    | io b =>
      cases b with
      | callback c =>
        cases c with
        | call c tick => cases hstep
        | turn t =>
          have hearly : t.tick < old := hturn.2 _ _ rfl rfl
          simp only [step, ioStep, callStep, turnCall, IoData.hasInput, hin, hprog, hearly] at hstep
          exact ⟨t.tick' + Expect.SOMESEC, (Option.some.inj hstep).symm⟩
      | _ => cases hstep
  obtain ⟨last, rfl⟩ := hstays
  rcases hdrained with hempty | hgone
  · exact hout hempty
  · cases hgone

/-- The script closes the port, the IO thread notices and ends, and the script
writes once more. -/
def writeAfterClose : List Act :=
  connect ++
  [.script (.act (.call .close 0)), .io .step, .io .step, .io (.received none), .io .step,
    .io .step, .script (.act (.call (.puts charC) 0))]

/-- A chunk arrives, the script reads it, and then the callback waits for the next
one for as long as it takes. -/
def writeUnderAny : List Act :=
  connect ++
  [.io .step, .io .step, .io (.received (some [0x61])), .io .step,
    .script (.act (.call .gets 0)), .script (.act (.turn (turnAt 0))),
    .io (.callback (.call (.any (-1)) 0)), .script (.act (.call (.puts charC) 0))]

/-- `puts` waits for a thread that has ended, and for one that waits itself. -/
theorem write_after_close_blocks :
    (∃ s, run (step fun _ => none) (Sys.init ttyCred none) writeAfterClose = some s ∧
      ¬ CanComplete (fun _ => none) s) ∧
    ∃ s, run (step fun _ => none) (Sys.init ttyCred (some charC)) writeUnderAny = some s ∧
      ¬ CanComplete (fun _ => none) s := by
  refine ⟨⟨_, rfl, fun h => ?_⟩, _, rfl, fun h => ?_⟩
  · obtain ⟨hloop, -⟩ := h rfl ⟨⟨_, rfl⟩, by decide⟩
    cases hloop
  · obtain ⟨-, hdrain⟩ := h rfl ⟨⟨_, rfl⟩, by decide⟩
    exact any_blocks _ _ _ rfl rfl (by decide) hdrain

/-- `puts` on a device that is up. -/
def writeWhileUp : List Act := connect ++ [.script (.act (.call (.puts charC) 0))]

theorem canComplete_of_serves_up :
    Along (step fun _ => none) (CanComplete fun _ => none) (Sys.init ttyCred none)
      writeWhileUp := by
  refine canComplete_of_serves (fun _ => none) ttyCred none writeWhileUp ?_
  -- nothing of `connect` sends, receives or writes
  refine meets_cons (fun _ => trivial) rfl <| meets_cons (fun _ => trivial) rfl <|
    meets_cons (fun _ => trivial) rfl <| meets_cons (fun _ => trivial) rfl <|
    meets_cons (fun _ => trivial) rfl <| meets_cons ?_ rfl trivial
  exact fun _ _ _ _ => rfl

end Autocom.Completion
