import Autocom.Machine

/-! # A wait call inside the device is the loop on what its polls found

While the script is in `strwaitt` or `strstr` and no callback reads, the IO
thread only adds input. The call then returns, accumulates and drains exactly
what the loop of `Expect` does on the chunks that its fetches found. -/
namespace Autocom.ExpectRuns
open Autocom Autocom.Lib.Lts Autocom.Machine
open Autocom.Expect
open Relation (ReflTransGen)

/-! ## The other thread, seen from inside a call -/

/-- The IO thread between two callbacks. -/
structure Elsewhere (d d' : Dev) : Prop where
  accum : d'.accum = d.accum
  baccum : d'.baccum = d.baccum
  strstrRet : d'.strstrRet = d.strstrRet
  drained : d'.log.drained = d.log.drained
  in_ : d.io.in_ <+: d'.io.in_

/-- A turn of the call, or a step of the IO thread. -/
inductive Alone (regex : Regex) : Dev × CallPc → Dev × CallPc → Prop
  | turn {d d' : Dev} {pc pc' : CallPc} (t : Turn)
      (hturn : turnCall regex d t pc = some (d', pc')) : Alone regex (d, pc) (d', pc')
  | other {d d' : Dev} {pc : CallPc} (h : Elsewhere d d') : Alone regex (d, pc) (d', pc)

/-- The script makes turns, the IO thread makes no step of a callback. -/
def alone : Act → Bool
  | .script (.act (.turn _)) => true
  | .io (.callback _) => false
  | .io _ => true
  | _ => false

theorem elsewhere_of_move {regex : Regex} {d d' : Dev} {io io' : IoPc} {b : IoAct}
    (halone : alone (.io b) = true) (h : IoMove regex d io b d' io') :
    Elsewhere d d' ∧ io' ≠ .notifying .aborted := by
  cases h with
  | callback => cases halone
  | stored shot pc hpc =>
    refine ⟨⟨rfl, rfl, rfl, rfl, List.prefix_append _ _⟩, ?_⟩
    rcases hpc with rfl | rfl <;> nofun
  | left d' hd => rcases hd with rfl | rfl <;> exact ⟨⟨rfl, rfl, rfl, rfl, List.prefix_rfl⟩, nofun⟩
  | _ => exact ⟨⟨rfl, rfl, rfl, rfl, List.prefix_rfl⟩, nofun⟩

theorem step_gone {regex : Regex} {d : Dev} {a : Act} : step regex ⟨d, .gone, .gone⟩ a = none := by
  cases a with
  | io b => cases b <;> rfl
  | script b => cases b <;> rfl

/-- Where the script thread is when its call is at `pc`. -/
def seenAs : CallPc → ScriptPc
  | .aborted => .gone
  | pc => .running pc

theorem seenAs_of_ne {pc : CallPc} (h : pc ≠ .aborted) : seenAs pc = .running pc := by
  cases pc with
  | aborted => exact absurd rfl h
  | _ => rfl

theorem settle_running (d : Dev) (pc : CallPc) {io : IoPc} (hio : io ≠ .notifying .aborted) :
    ∃ io', (Sys.mk d (.running pc) io).settle = ⟨d, seenAs pc, io'⟩ ∧
      (pc ≠ .aborted → io' = io) ∧ (pc = .aborted → io' = .gone) := by
  by_cases hpc : pc = .aborted
  · subst hpc
    exact ⟨.gone, rfl, fun h => absurd rfl h, fun _ => rfl⟩
  · refine ⟨io, ?_, fun _ => rfl, fun h => absurd h hpc⟩
    rw [seenAs_of_ne hpc]
    rcases settle_cases ⟨d, .running pc, io⟩ with heq | ⟨hsc, -⟩
    · exact heq
    · unfold Sys.settle at hsc
      split at hsc
      · next h => cases h; exact absurd rfl hpc
      · next h _ => exact absurd h hio
      · cases hsc

/-- **The script's view of a run.** -/
theorem run_alone {regex : Regex} {d : Dev} {pc : CallPc} {io : IoPc} {t : Sys}
    {acts : List Act} (hpc : pc ≠ .aborted) (hio : io ≠ .notifying .aborted)
    (halone : ∀ a ∈ acts, alone a = true)
    (h : run (step regex) ⟨d, .running pc, io⟩ acts = some t) :
    ∃ pc', ReflTransGen (Alone regex) (d, pc) (t.dev, pc') ∧ t.script = seenAs pc' := by
  induction acts generalizing d pc io with
  | nil =>
    cases h
    exact ⟨pc, .refl, (seenAs_of_ne hpc).symm⟩
  | cons a rest ih =>
    obtain ⟨m, hstep, hrest⟩ := run_cons.mp h
    have ha := halone a (by simp)
    have hothers : ∀ b ∈ rest, alone b = true := fun b hb => halone b (by simp [hb])
    cases a with
    | io b =>
      obtain ⟨⟨d₁, io₁⟩, hmove, rfl⟩ := Option.map_eq_some_iff.mp hstep
      obtain ⟨helse, hio₁⟩ := elsewhere_of_move ha (ioStep_move hmove)
      obtain ⟨io', hsettle, hsame, -⟩ := settle_running d₁ pc hio₁
      rw [hsettle, seenAs_of_ne hpc, hsame hpc] at hrest
      obtain ⟨pc', hruns, ht⟩ := ih hpc hio₁ hothers hrest
      exact ⟨pc', .head (.other helse) hruns, ht⟩
    | script b =>
      cases b with
      | act c =>
        cases c with
        | call c tick => cases ha
        | turn u =>
          obtain ⟨r, hmove, rfl⟩ := Option.map_eq_some_iff.mp hstep
          obtain ⟨⟨d₁, pc₁⟩, hturn, rfl⟩ := Option.map_eq_some_iff.mp hmove
          obtain ⟨io', hsettle, hsame, hgone⟩ := settle_running d₁ pc₁ hio
          rw [hsettle] at hrest
          by_cases habort : pc₁ = .aborted
          · subst habort
            rw [hgone rfl] at hrest
            cases rest with
            | nil => cases hrest; exact ⟨.aborted, .single (.turn u hturn), rfl⟩
            | cons e rest =>
              obtain ⟨n, hnone, -⟩ := run_cons.mp hrest
              rw [show seenAs .aborted = .gone from rfl, step_gone] at hnone
              cases hnone
          · rw [seenAs_of_ne habort, hsame habort] at hrest
            obtain ⟨pc', hruns, ht⟩ := ih habort hio hothers hrest
            exact ⟨pc', .head (.turn u hturn) hruns, ht⟩
      | step => cases ha
      | started ok => cases ha
      | destroy => cases ha

/-! ## What a call has done -/

/-- How the script sees the outcome of a call. -/
def Shows {α : Type} (ret : α → Ret) : CallPc → Outcome α → Prop
  | .ready r, .ret v => r = ret v
  | .aborted, .thrown => True
  | .strwaitt .., .waiting => True
  | .strstr .., .waiting => True
  | _, _ => False

/-- From `d` the call did `r` and stands at `pc'` with `d'`. -/
structure Did {α : Type} (ret : α → Ret) (d d' : Dev) (pc' : CallPc) (r : Result α) : Prop where
  accum : d'.accum = r.accum
  drained : d'.log.drained = d.log.drained ++ r.drained.map fun buf => ⟨buf, true⟩
  out : Shows ret pc' r.out

theorem Did.nothing {α : Type} {ret : α → Ret} (d : Dev) {pc : CallPc} {out : Outcome α}
    (hout : Shows ret pc out) : Did ret d d pc ⟨out, d.accum, []⟩ :=
  ⟨rfl, by simp, hout⟩

theorem Did.elsewhere {α : Type} {ret : α → Ret} {d d₁ d' : Dev} {pc' : CallPc} {r : Result α}
    (h : Did ret d₁ d' pc' r) (helse : Elsewhere d d₁) : Did ret d d' pc' r :=
  ⟨h.accum, by rw [h.drained, helse.drained], h.out⟩

theorem Did.fetched {α : Type} {ret : α → Ret} {d d₁ d' : Dev} {pc' : CallPc} {r r' : Result α}
    {buf : Bytes} (h : Did ret d₁ d' pc' r) (haccum : r'.accum = r.accum) (hout : r'.out = r.out)
    (hdrained : r'.drained = buf :: r.drained)
    (hd : d₁.log.drained = d.log.drained ++ [⟨buf, true⟩]) : Did ret d d' pc' r' := by
  refine ⟨h.accum.trans haccum.symm, ?_, hout ▸ h.out⟩
  rw [h.drained, hd, hdrained]
  simp

/-- **The rule for a call**, from its end backwards: `P` holds at the end, and
before each turn and each step of the other thread if it holds after it. `I` says
where the call can be. -/
theorem runs_induction {regex : Regex} {I P : Dev → CallPc → Prop} {d d' : Dev}
    {pc pc' : CallPc} (hend : I d' pc' → P d' pc')
    (hturn : ∀ d pc t d₁ pc₁, I d pc → turnCall regex d t pc = some (d₁, pc₁) →
      ReflTransGen (Alone regex) (d₁, pc₁) (d', pc') → (I d₁ pc₁ → P d₁ pc₁) → P d pc)
    (hother : ∀ d pc d₁, I d pc → Elsewhere d d₁ → (I d₁ pc → P d₁ pc) → P d pc)
    (hcall : I d pc) (h : ReflTransGen (Alone regex) (d, pc) (d', pc')) : P d pc := by
  obtain ⟨c, hc⟩ : ∃ c, c = (d, pc) := ⟨_, rfl⟩
  rw [← hc] at h
  induction h using ReflTransGen.head_induction_on generalizing d pc with
  | refl =>
    obtain ⟨rfl, rfl⟩ := Prod.mk.inj hc
    exact hend hcall
  | head hone hrest ih =>
    subst hc
    cases hone with
    | turn t hstep => exact hturn d pc t _ _ hcall hstep hrest fun hcall₁ => ih hcall₁ rfl
    | other helse => exact hother d pc _ hcall helse fun hcall₁ => ih hcall₁ rfl

/-! ## `strwaitt` -/

section
variable {regex : Regex} {expr : CString} {infinite : Bool}

/-- Where `strwaitt` can be; it fetches only what `hasInput` has seen. -/
inductive InCall (expr : CString) (infinite : Bool) (d : Dev) : CallPc → Prop
  | test (expire : Int) : InCall expr infinite d (.strwaitt expr expire infinite false)
  | fetch (expire : Int) (hin : d.io.in_ ≠ []) :
    InCall expr infinite d (.strwaitt expr expire infinite true)
  | returned (v : Int) : InCall expr infinite d (.ready (.int v))
  | thrown : InCall expr infinite d .aborted

/-- What the loop may still do from there. -/
inductive Continues (regex : Regex) (expr : CString) (infinite : Bool) (accum : Bytes) :
    CallPc → Result Int → Prop
  | test (expire : Int) (polls : List Poll) :
    Continues regex expr infinite accum (.strwaitt expr expire infinite false)
      (strwaittLoop regex expr infinite expire accum polls)
  | unfetched (expire : Int) :
    Continues regex expr infinite accum (.strwaitt expr expire infinite true) ⟨.waiting, accum, []⟩
  | fetch (expire : Int) (buf : Bytes) (polls : List Poll) (hbuf : buf ≠ []) :
    Continues regex expr infinite accum (.strwaitt expr expire infinite true)
      (afterFetch regex expr infinite expire accum buf polls)
  | returned (v : Int) :
    Continues regex expr infinite accum (.ready (.int v)) ⟨.ret v, accum, []⟩
  | thrown : Continues regex expr infinite accum .aborted ⟨.thrown, accum, []⟩

/-- One turn of the call, then what the loop does from there. -/
theorem did_turn {d d₁ d' : Dev} {pc pc₁ pc' : CallPc} {t : Turn}
    (hcall : InCall expr infinite d pc) (hturn : turnCall regex d t pc = some (d₁, pc₁))
    (h : InCall expr infinite d₁ pc₁ →
      ∃ r, Continues regex expr infinite d₁.accum pc₁ r ∧ Did .int d₁ d' pc' r) :
    ∃ r, Continues regex expr infinite d.accum pc r ∧ Did .int d d' pc' r := by
  cases hcall with
  | returned v => cases hturn
  | thrown => cases hturn
  | test expire =>
    simp only [turnCall] at hturn
    by_cases hgo : t.go d.progAlive expire = true
    · rw [if_pos hgo] at hturn
      obtain ⟨rfl, rfl⟩ := Prod.mk.inj (Option.some.inj hturn)
      by_cases hin : d.io.in_ = []
      · have hno : d.io.hasInput = false := IoData.hasInput_eq_false.mpr hin
        rw [hno] at h
        obtain ⟨r, hr, hdid⟩ := h (.test _)
        cases hr with
        | test expire' polls =>
          refine ⟨_, .test expire (⟨t, d.progAlive, []⟩ :: polls), ?_⟩
          simpa [strwaittLoop, hgo] using hdid
      · have hyes : d.io.hasInput = true := IoData.hasInput_iff.mpr hin
        rw [hyes] at h
        obtain ⟨r, hr, hdid⟩ := h (.fetch _ hin)
        cases hr with
        | unfetched => exact ⟨_, .test expire [], hdid⟩
        | fetch expire' buf polls hbuf =>
          refine ⟨_, .test expire (⟨t, d.progAlive, buf⟩ :: polls), ?_⟩
          rw [strwaittLoop_fetch polls hgo hbuf]
          exact hdid
    · rw [if_neg hgo] at hturn
      obtain ⟨rfl, rfl⟩ := Prod.mk.inj (Option.some.inj hturn)
      obtain ⟨r, hr, hdid⟩ := h (.returned 1)
      cases hr
      refine ⟨_, .test expire [⟨t, d.progAlive, []⟩], ?_⟩
      simpa [strwaittLoop, hgo] using hdid
  | fetch expire hin =>
    simp only [turnCall, Dev.drain_eq] at hturn
    cases hbody : strwaittBody regex expr d.accum d.io.in_ with
    | found accum =>
      simp only [hbody] at hturn
      obtain ⟨rfl, rfl⟩ := Prod.mk.inj (Option.some.inj hturn)
      obtain ⟨r, hr, hdid⟩ := h (.returned 0)
      cases hr
      refine ⟨_, .fetch expire d.io.in_ [] hin, ?_⟩
      unfold afterFetch
      rw [hbody]
      exact hdid.fetched rfl rfl rfl rfl
    | more accum =>
      simp only [hbody] at hturn
      obtain ⟨rfl, rfl⟩ := Prod.mk.inj (Option.some.inj hturn)
      obtain ⟨r, hr, hdid⟩ := h (.test expire)
      cases hr with
      | test expire' polls =>
        refine ⟨_, .fetch expire d.io.in_ polls hin, ?_⟩
        unfold afterFetch
        rw [hbody]
        exact hdid.fetched rfl rfl rfl rfl
    | thrown =>
      simp only [hbody] at hturn
      obtain ⟨rfl, rfl⟩ := Prod.mk.inj (Option.some.inj hturn)
      obtain ⟨r, hr, hdid⟩ := h .thrown
      cases hr
      refine ⟨_, .fetch expire d.io.in_ [] hin, ?_⟩
      unfold afterFetch
      rw [hbody]
      exact hdid.fetched rfl rfl rfl rfl

/-- The IO thread changes nothing the call has done. -/
theorem InCall.elsewhere {d d₁ : Dev} {pc : CallPc} (h : InCall expr infinite d pc)
    (helse : Elsewhere d d₁) : InCall expr infinite d₁ pc := by
  cases h with
  | test expire => exact .test expire
  | fetch expire hin => exact .fetch expire fun hnil => hin (List.prefix_nil.mp (hnil ▸ helse.in_))
  | returned v => exact .returned v
  | thrown => exact .thrown

theorem did_of_runs {d d' : Dev} {pc pc' : CallPc} (hcall : InCall expr infinite d pc)
    (h : ReflTransGen (Alone regex) (d, pc) (d', pc')) :
    ∃ r, Continues regex expr infinite d.accum pc r ∧ Did .int d d' pc' r := by
  refine runs_induction (P := fun d pc => ∃ r, Continues regex expr infinite d.accum pc r ∧
    Did .int d d' pc' r) ?_ (fun _ _ _ _ _ hcall hturn _ => did_turn hcall hturn) ?_ hcall h
  · intro hend
    cases hend with
    | test expire => exact ⟨_, .test expire [], Did.nothing _ trivial⟩
    | fetch expire hin => exact ⟨_, .unfetched expire, Did.nothing _ trivial⟩
    | returned v => exact ⟨_, .returned v, Did.nothing _ rfl⟩
    | thrown => exact ⟨_, .thrown, Did.nothing _ trivial⟩
  · intro d pc d₁ hcall helse hafter
    obtain ⟨r, hr, hdid⟩ := hafter (hcall.elsewhere helse)
    rw [helse.accum] at hr
    exact ⟨r, hr, hdid.elsewhere helse⟩

end

/-- A call that does not abort at once, then turns of it. -/
theorem run_call {regex : Regex} {d : Dev} {ret : Ret} {io : IoPc} {t : Sys} {c : Call}
    {tick : Int} {acts : List Act} (hio : io ≠ .notifying .aborted)
    (halone : ∀ a ∈ acts, alone a = true) (hstart : (startCall d tick c).2 ≠ .aborted)
    (h : run (step regex) ⟨d, .running (.ready ret), io⟩
      (.script (.act (.call c tick)) :: acts) = some t) :
    ∃ pc', ReflTransGen (Alone regex) (startCall d tick c) (t.dev, pc') ∧
      t.script = seenAs pc' := by
  obtain ⟨m, hstep, hrest⟩ := run_cons.mp h
  have hm : (Sys.mk (startCall d tick c).1 (.running (startCall d tick c).2) io).settle = m :=
    Option.some.inj hstep
  obtain ⟨io', hsettle, hsame, -⟩ :=
    settle_running (startCall d tick c).1 (startCall d tick c).2 hio
  rw [← hm, hsettle, seenAs_of_ne hstart, hsame hstart] at hrest
  exact run_alone hstart hio halone hrest

/-- **The `strwaitt` of the device is the loop on its own polls**: what it has
returned, accumulated and drained so far is what the loop does on some polls. -/
theorem run_strwaitt {regex : Regex} {d : Dev} {ret : Ret} {io : IoPc} {t : Sys} {expr : CString}
    {to_ : Option Int} {tick : Int} {acts : List Act} (hio : io ≠ .notifying .aborted)
    (halone : ∀ a ∈ acts, alone a = true)
    (h : run (step regex) ⟨d, .running (.ready ret), io⟩
      (.script (.act (.call (.strwaitt expr to_) tick)) :: acts) = some t) :
    ∃ pc' polls, t.script = seenAs pc' ∧
      Did .int d t.dev pc' (strwaitt regex expr (to_.getD d.tout) tick polls) := by
  have hstart : startCall d tick (.strwaitt expr to_) = ({ d with accum := [] },
      .strwaitt expr (deadline tick (to_.getD d.tout)).1 (deadline tick (to_.getD d.tout)).2
        false) := rfl
  have hloop : ∀ polls, strwaittLoop regex expr (deadline tick (to_.getD d.tout)).2
      (deadline tick (to_.getD d.tout)).1 [] polls =
        strwaitt regex expr (to_.getD d.tout) tick polls := by
    intro polls
    unfold deadline strwaitt
    split <;> rfl
  obtain ⟨pc', hruns, hscript⟩ := run_call hio halone (by rw [hstart]; nofun) h
  rw [hstart] at hruns
  obtain ⟨r, hr, hdid⟩ := did_of_runs (.test _) hruns
  cases hr with
  | test expire polls =>
    rw [hloop polls] at hdid
    exact ⟨pc', polls, hscript, hdid.accum, hdid.drained, hdid.out⟩

/-! ## `strstr` -/

section
variable {regex : Regex} {strings : List CString}

inductive InScan (strings : List CString) (d : Dev) : CallPc → Prop
  | test (expire : Int) : InScan strings d (.strstr strings expire false)
  | fetch (expire : Int) (hin : d.io.in_ ≠ []) : InScan strings d (.strstr strings expire true)
  | returned (v : Bytes) : InScan strings d (.ready (.text v))
  | thrown : InScan strings d .aborted

/-- What the loop may still do from there, and the `ret` it leaves. -/
inductive Scans (strings : List CString) (accum ret : Bytes) :
    CallPc → Result Bytes × Bytes → Prop
  | test (expire : Int) (polls : List Poll) :
    Scans strings accum ret (.strstr strings expire false)
      (strstrLoop strings expire accum ret polls)
  | unfetched (expire : Int) :
    Scans strings accum ret (.strstr strings expire true) (⟨.waiting, accum, []⟩, ret)
  | fetch (tick' expire : Int) (buf : Bytes) (polls : List Poll) (hbuf : buf ≠ []) :
    Scans strings accum ret (.strstr strings expire true)
      (afterScan strings tick' expire accum ret buf polls)
  | returned (v : Bytes) : Scans strings accum ret (.ready (.text v)) (⟨.ret v, accum, []⟩, ret)
  | thrown : Scans strings accum ret .aborted (⟨.thrown, accum, []⟩, ret)

/-- One turn of the call, then what the loop does from there. -/
theorem scans_turn {d d₁ d' : Dev} {pc pc₁ pc' : CallPc} {t : Turn} (hcall : InScan strings d pc)
    (hturn : turnCall regex d t pc = some (d₁, pc₁))
    (h : InScan strings d₁ pc₁ → ∃ r, Scans strings d₁.accum d₁.strstrRet pc₁ r ∧
      Did .text d₁ d' pc' r.1 ∧ d'.strstrRet = r.2) :
    ∃ r, Scans strings d.accum d.strstrRet pc r ∧ Did .text d d' pc' r.1 ∧
      d'.strstrRet = r.2 := by
  cases hcall with
  | returned v => cases hturn
  | thrown => cases hturn
  | test expire =>
    simp only [turnCall] at hturn
    by_cases hgo : t.go d.progAlive expire = true
    · rw [if_pos hgo] at hturn
      obtain ⟨rfl, rfl⟩ := Prod.mk.inj (Option.some.inj hturn)
      by_cases hin : d.io.in_ = []
      · have hno : d.io.hasInput = false := IoData.hasInput_eq_false.mpr hin
        rw [hno] at h
        obtain ⟨r, hr, hdid⟩ := h (.test _)
        cases hr with
        | test expire' polls =>
          refine ⟨_, .test expire (⟨t, d.progAlive, []⟩ :: polls), ?_⟩
          simpa [strstrLoop, hgo] using hdid
      · have hyes : d.io.hasInput = true := IoData.hasInput_iff.mpr hin
        rw [hyes] at h
        obtain ⟨r, hr, hdid⟩ := h (.fetch _ hin)
        cases hr with
        | unfetched => exact ⟨_, .test expire [], hdid⟩
        | fetch tick' expire' buf polls hbuf =>
          refine ⟨_, .test expire (⟨⟨t.tick, t.hook, tick'⟩, d.progAlive, buf⟩ :: polls), ?_⟩
          rw [strstrLoop_scan polls hgo hbuf]
          exact hdid
    · rw [if_neg hgo] at hturn
      obtain ⟨rfl, rfl⟩ := Prod.mk.inj (Option.some.inj hturn)
      obtain ⟨r, hr, hdid⟩ := h (.returned _)
      cases hr
      refine ⟨_, .test expire [⟨t, d.progAlive, []⟩], ?_⟩
      simpa [strstrLoop, hgo] using hdid
  | fetch expire hin =>
    simp only [turnCall, Dev.drain_eq] at hturn
    obtain ⟨⟨hit, trunc⟩, hbody⟩ : ∃ r, strstrBody strings d.accum d.io.in_ = r := ⟨_, rfl⟩
    simp only [hbody] at hturn
    cases trunc with
    | some accum =>
      obtain ⟨rfl, rfl⟩ := Prod.mk.inj (Option.some.inj hturn)
      obtain ⟨r, hr, hdid, hret⟩ := h (.test _)
      cases hr with
      | test expire' polls =>
        refine ⟨_, .fetch t.tick' expire d.io.in_ polls hin, ?_⟩
        unfold afterScan
        rw [hbody]
        exact ⟨hdid.fetched rfl rfl rfl rfl, hret⟩
    | none =>
      obtain ⟨rfl, rfl⟩ := Prod.mk.inj (Option.some.inj hturn)
      obtain ⟨r, hr, hdid, hret⟩ := h .thrown
      cases hr
      refine ⟨_, .fetch t.tick' expire d.io.in_ [] hin, ?_⟩
      unfold afterScan
      rw [hbody]
      exact ⟨hdid.fetched rfl rfl rfl rfl, hret⟩

theorem InScan.elsewhere {d d₁ : Dev} {pc : CallPc} (h : InScan strings d pc)
    (helse : Elsewhere d d₁) : InScan strings d₁ pc := by
  cases h with
  | test expire => exact .test expire
  | fetch expire hin => exact .fetch expire fun hnil => hin (List.prefix_nil.mp (hnil ▸ helse.in_))
  | returned v => exact .returned v
  | thrown => exact .thrown

theorem scans_of_runs {d d' : Dev} {pc pc' : CallPc} (hcall : InScan strings d pc)
    (h : ReflTransGen (Alone regex) (d, pc) (d', pc')) :
    ∃ r, Scans strings d.accum d.strstrRet pc r ∧ Did .text d d' pc' r.1 ∧
      d'.strstrRet = r.2 := by
  refine runs_induction (P := fun d pc => ∃ r, Scans strings d.accum d.strstrRet pc r ∧
    Did .text d d' pc' r.1 ∧ d'.strstrRet = r.2) ?_
    (fun _ _ _ _ _ hcall hturn _ => scans_turn hcall hturn) ?_ hcall h
  · intro hend
    cases hend with
    | test expire => exact ⟨_, .test expire [], Did.nothing _ trivial, rfl⟩
    | fetch expire hin => exact ⟨_, .unfetched expire, Did.nothing _ trivial, rfl⟩
    | returned v => exact ⟨_, .returned v, Did.nothing _ rfl, rfl⟩
    | thrown => exact ⟨_, .thrown, Did.nothing _ trivial, rfl⟩
  · intro d pc d₁ hcall helse hafter
    obtain ⟨r, hr, hdid, hret⟩ := hafter (hcall.elsewhere helse)
    rw [helse.accum, helse.strstrRet] at hr
    exact ⟨r, hr, hdid.elsewhere helse, hret⟩

end

/-- **The `strstr` of the device is the loop on its own polls**, the static
`ret` included. -/
theorem run_strstr {regex : Regex} {d : Dev} {ret : Ret} {io : IoPc} {t : Sys}
    {strings : List CString} {tick : Int} {acts : List Act} (hio : io ≠ .notifying .aborted)
    (halone : ∀ a ∈ acts, alone a = true)
    (h : run (step regex) ⟨d, .running (.ready ret), io⟩
      (.script (.act (.call (.strstr strings) tick)) :: acts) = some t) :
    ∃ pc' polls, t.script = seenAs pc' ∧
      Did .text d t.dev pc' (strstr strings d.tout tick d.strstrRet polls).1 ∧
      t.dev.strstrRet = (strstr strings d.tout tick d.strstrRet polls).2 := by
  have hstart : startCall d tick (.strstr strings) =
      ({ d with accum := [] }, .strstr strings (tick + d.tout) false) := rfl
  obtain ⟨pc', hruns, hscript⟩ := run_call hio halone (by rw [hstart]; nofun) h
  rw [hstart] at hruns
  obtain ⟨r, hr, hdid, hret⟩ := scans_of_runs (.test _) hruns
  cases hr with
  | test expire polls =>
    exact ⟨pc', polls, hscript, ⟨hdid.accum, hdid.drained, hdid.out⟩, hret⟩

end Autocom.ExpectRuns
