import Autocom.ExpectRuns
import Autocom.ExpectScan

/-! # `binwaitt`: waiting for bytes

`_baccum` outlives the call, `find` is given the array without its length, and
the cut subtracts from the length of `_accum`, which the call has cleared: the
first time `_baccum` is over `TRIMEXPECT` the call throws. Until then nothing is
cut, and the call looks for `needle` in what `_baccum` held and what it has read. -/
namespace Autocom.BinWait
open Autocom Autocom.Expect Autocom.ExpectWindow Autocom.ExpectScan Autocom.Lib.Scan
open Autocom.Lib.Lts Autocom.Machine Autocom.ExpectRuns
open Relation (ReflTransGen)

/-! ## The loop -/

/-- A result's `accum` is `_baccum` here. -/
def binwaittLoop (needle : Bytes) (sz accumLen : Nat) (infinite : Bool) :
    Int → Bytes → List Poll → Result Int
  | _, baccum, [] => ⟨.waiting, baccum, []⟩
  | expire, baccum, p :: ps =>
    if p.go p.alive expire then
      let expire := if infinite then p.tick' + SOMESEC else expire
      match binwaittBody needle sz accumLen (baccum ++ p.chunk) with
      | .found baccum => ⟨.ret 0, baccum, [p.chunk]⟩
      | .more baccum => (binwaittLoop needle sz accumLen infinite expire baccum ps).after p.chunk
      | .thrown => ⟨.thrown, baccum, [p.chunk]⟩
    else ⟨.ret 1, baccum, []⟩

/-- The call on an object with any past. More than 256 bytes overrun `ptr`. -/
def binwaittOn (d : Dev) (a stack : Bytes) (to_ start : Int) (polls : List Poll) : Result Int :=
  match startCall d start (.binwaitt a stack (some to_)) with
  | (d, .binwaitt needle sz expire infinite) =>
    binwaittLoop needle sz d.accum.length infinite expire d.baccum polls
  | (d, _) => ⟨.thrown, d.baccum, []⟩

/-- The polls the call makes before it gives up. -/
def binPolls (to_ start : Int) (polls : List Poll) : List Poll :=
  passed (deadline start to_).2 (deadline start to_).1 polls

theorem binwaittOn_eq (d : Dev) {a : Bytes} (stack : Bytes) (to_ start : Int) (polls : List Poll)
    (ha : a.length ≤ 256) :
    binwaittOn d a stack to_ start polls =
      binwaittLoop (cstr (a ++ stack)) a.length 0 (deadline start to_).2 (deadline start to_).1
        d.baccum polls := by
  have hfits : fits a = true := decide_eq_true ha
  simp only [binwaittOn, startCall, hfits, if_true, Option.getD_some, List.length_nil]

/-! ## The loop on the device -/

/-- From `d` the call did `r` and stands at `pc'` with `d'`. -/
structure DidBin (d d' : Dev) (pc' : CallPc) (r : Result Int) : Prop where
  baccum : d'.baccum = r.accum
  drained : d'.log.drained = d.log.drained ++ r.drained.map fun buf => ⟨buf, false⟩
  out : match pc', r.out with
    | .ready v, .ret n => v = .int n
    | .aborted, .thrown => True
    | .binwaitt .., .waiting => True
    | _, _ => False

/-- A call that is over makes no more turns. -/
theorem over_stays {regex : Regex} {d d' : Dev} {pc pc' : CallPc}
    (hover : ∀ d t, turnCall regex d t pc = none)
    (h : ReflTransGen (Alone regex) (d, pc) (d', pc')) :
    pc' = pc ∧ d'.baccum = d.baccum ∧ d'.log.drained = d.log.drained := by
  refine runs_induction (I := fun _ q => q = pc) (P := fun d _ => pc' = pc ∧
    d'.baccum = d.baccum ∧ d'.log.drained = d.log.drained) (fun hpc => ⟨hpc, rfl, rfl⟩) ?_ ?_ rfl h
  · intro d q t d₁ q₁ hq hturn _ _
    rw [hq, hover] at hturn
    cases hturn
  · intro d q d₁ hq helse hafter
    obtain ⟨hpc, hbaccum, hdrained⟩ := hafter hq
    exact ⟨hpc, hbaccum.trans helse.baccum, hdrained.trans helse.drained⟩

theorem didBin_of_runs {regex : Regex} {needle : Bytes} {sz : Nat} {infinite : Bool} {d d' : Dev}
    {expire : Int} {pc' : CallPc}
    (h : ReflTransGen (Alone regex) (d, .binwaitt needle sz expire infinite) (d', pc')) :
    ∃ polls, DidBin d d' pc'
      (binwaittLoop needle sz d.accum.length infinite expire d.baccum polls) := by
  refine runs_induction (I := fun _ _ => True) (P := fun d pc =>
    ∀ expire, pc = .binwaitt needle sz expire infinite → ∃ polls, DidBin d d' pc'
      (binwaittLoop needle sz d.accum.length infinite expire d.baccum polls))
    ?_ ?_ ?_ trivial h expire rfl
  · intro _ expire hpc
    rw [hpc]
    exact ⟨[], rfl, by simp [binwaittLoop], trivial⟩
  · intro d pc t d₁ pc₁ _ hturn hrest hafter expire hpc
    rw [hpc] at hturn
    simp only [turnCall, Dev.drain_eq] at hturn
    by_cases hgo : t.go d.progAlive expire = true
    · rw [if_pos hgo] at hturn
      cases hbody : binwaittBody needle sz d.accum.length (d.baccum ++ d.io.in_) with
      | found baccum =>
        simp only [hbody] at hturn
        obtain ⟨rfl, rfl⟩ := Prod.mk.inj (Option.some.inj hturn)
        obtain ⟨rfl, hbaccum, hdrained⟩ := over_stays (fun _ _ => rfl) hrest
        refine ⟨[⟨t, d.progAlive, d.io.in_⟩], ?_⟩
        simp only [binwaittLoop, hgo, if_true, hbody]
        exact ⟨hbaccum, hdrained, rfl⟩
      | more baccum =>
        simp only [hbody] at hturn
        obtain ⟨rfl, rfl⟩ := Prod.mk.inj (Option.some.inj hturn)
        obtain ⟨polls, hdid⟩ := hafter trivial _ rfl
        refine ⟨⟨t, d.progAlive, d.io.in_⟩ :: polls, ?_⟩
        simp only [binwaittLoop, hgo, if_true, hbody]
        exact ⟨hdid.baccum, by rw [hdid.drained]; simp, hdid.out⟩
      | thrown =>
        simp only [hbody] at hturn
        obtain ⟨rfl, rfl⟩ := Prod.mk.inj (Option.some.inj hturn)
        obtain ⟨rfl, hbaccum, hdrained⟩ := over_stays (fun _ _ => rfl) hrest
        refine ⟨[⟨t, d.progAlive, d.io.in_⟩], ?_⟩
        simp only [binwaittLoop, hgo, if_true, hbody]
        exact ⟨hbaccum, hdrained, trivial⟩
    · rw [if_neg hgo] at hturn
      obtain ⟨rfl, rfl⟩ := Prod.mk.inj (Option.some.inj hturn)
      obtain ⟨rfl, hbaccum, hdrained⟩ := over_stays (fun _ _ => rfl) hrest
      refine ⟨[⟨t, d.progAlive, []⟩], ?_⟩
      simp only [binwaittLoop, hgo]
      exact ⟨hbaccum, by simpa using hdrained, rfl⟩
  · intro d pc d₁ _ helse hafter expire hpc
    obtain ⟨polls, hdid⟩ := hafter trivial expire hpc
    rw [helse.accum, helse.baccum] at hdid
    exact ⟨polls, hdid.baccum, by rw [hdid.drained, helse.drained], hdid.out⟩

/-- **The `binwaitt` of the device is the loop on its own polls.** -/
theorem run_binwaitt {regex : Regex} {d : Dev} {ret : Ret} {io : IoPc} {t : Sys} {a stack : Bytes}
    {to_ tick : Int} {acts : List Act} (hio : io ≠ .notifying .aborted)
    (halone : ∀ a ∈ acts, alone a = true) (ha : a.length ≤ 256)
    (h : run (step regex) ⟨d, .running (.ready ret), io⟩
      (.script (.act (.call (.binwaitt a stack (some to_)) tick)) :: acts) = some t) :
    ∃ pc' polls, t.script = seenAs pc' ∧
      DidBin d t.dev pc' (binwaittOn d a stack to_ tick polls) := by
  have hfits : fits a = true := decide_eq_true ha
  have hstart : startCall d tick (.binwaitt a stack (some to_)) = ({ d with accum := [] },
      .binwaitt (cstr (a ++ stack)) a.length (deadline tick to_).1 (deadline tick to_).2) := by
    simp only [startCall, hfits, if_true, Option.getD_some]
  obtain ⟨pc', hruns, hscript⟩ := run_call hio halone (by simp [hstart]) h
  rw [hstart] at hruns
  obtain ⟨polls, hdid⟩ := didBin_of_runs hruns
  refine ⟨pc', polls, hscript, ?_⟩
  rw [binwaittOn_eq d stack to_ tick polls ha]
  exact ⟨hdid.baccum, hdid.drained, hdid.out⟩

/-! ## The loop is a scan -/

/-- The cut of `_baccum`. -/
def binTrim (sz accumLen : Nat) (baccum : Bytes) : Option Bytes :=
  if baccum.length > TRIMEXPECT then
    if sz ≤ accumLen ∧ accumLen - sz ≤ baccum.length then some (baccum.take (accumLen - sz))
    else none
  else some baccum

/-- It subtracts from the length of an accumulator that is empty. -/
theorem binTrim_eq_none {sz : Nat} (hsz : 0 < sz) {baccum : Bytes} :
    binTrim sz 0 baccum = none ↔ TRIMEXPECT < baccum.length := by
  unfold binTrim
  split
  · next hlong => rw [if_neg (by omega)]; exact ⟨fun _ => hlong, fun _ => rfl⟩
  · next hshort => exact ⟨fun h => (Option.some_ne_none _ h).elim, fun h => (hshort h).elim⟩

theorem binTrim_eq_some {sz : Nat} (hsz : 0 < sz) {baccum trunc : Bytes}
    (h : binTrim sz 0 baccum = some trunc) : trunc = baccum := by
  unfold binTrim at h
  split at h
  · rw [if_neg (by omega)] at h
    cases h
  · exact (Option.some.inj h).symm

def binwaittScanner (needle : Bytes) (sz accumLen : Nat) : Scanner Bytes Bytes where
  seen baccum buf := decide (baccum ++ buf ≠ [] ∧ needle <:+: baccum ++ buf)
  keep baccum buf := binTrim sz accumLen (baccum ++ buf)

/-- One turn is one element of the scan. -/
theorem binwaittBody_eq (needle : Bytes) (sz accumLen : Nat) (baccum buf : Bytes) :
    binwaittBody needle sz accumLen (baccum ++ buf) =
      if (binwaittScanner needle sz accumLen).seen baccum buf then .found (baccum ++ buf)
      else match (binwaittScanner needle sz accumLen).keep baccum buf with
        | some trunc => .more trunc
        | none => .thrown := by
  simp only [binwaittBody, binwaittScanner, binTrim, decide_eq_true_eq]
  split
  · rfl
  · split
    · split <;> rfl
    · rfl

/-- The call is the scan of its polls. -/
structure Consumes (live : List Poll) (late : Bool) (fate : Fate Bytes) (r : Result Int) :
    Prop where
  out : r.out = outcome late fate
  drained : r.drained = (live.take (used live.length fate)).map Poll.chunk

theorem binwaittLoop_consumes (needle : Bytes) (sz accumLen : Nat) (infinite : Bool)
    (polls : List Poll) (expire : Int) (baccum : Bytes) :
    Consumes (passed infinite expire polls)
      (decide ((passed infinite expire polls).length < polls.length))
      ((binwaittScanner needle sz accumLen).scan baccum
        ((passed infinite expire polls).map Poll.chunk))
      (binwaittLoop needle sz accumLen infinite expire baccum polls) := by
  induction polls generalizing expire baccum with
  | nil => exact ⟨rfl, rfl⟩
  | cons p ps ih =>
    unfold binwaittLoop passed
    by_cases hgo : p.go p.alive expire = true
    · rw [if_pos hgo, if_pos hgo]
      generalize (if infinite = true then p.tick' + SOMESEC else expire) = expire'
      simp only [List.map_cons, Scanner.scan, List.length_cons, Nat.add_lt_add_iff_right,
        binwaittBody_eq]
      by_cases hseen : (binwaittScanner needle sz accumLen).seen baccum p.chunk = true
      · simp only [if_pos hseen]
        exact ⟨rfl, rfl⟩
      · simp only [if_neg hseen]
        cases hkeep : (binwaittScanner needle sz accumLen).keep baccum p.chunk with
        | none => exact ⟨rfl, rfl⟩
        | some trunc =>
          obtain ⟨hout, hdrained⟩ := ih expire' trunc
          refine ⟨?_, ?_⟩
          · rw [outcome_next]
            exact hout
          · rw [List.length_cons, used_next, List.take_succ_cons, List.map_cons, ← hdrained]
            rfl
    · rw [if_neg hgo, if_neg hgo]
      exact ⟨rfl, rfl⟩

/-! ## What the call looks at -/

/-- At poll `k` the needle is in what `_baccum` held and the call has read. -/
def Hit (old needle : Bytes) (live : List Poll) (k : Nat) : Prop :=
  old ++ textAt live (k + 1) ≠ [] ∧ needle <:+: old ++ textAt live (k + 1)

/-- How the scan ends: nothing is cut before it is lost. -/
inductive BinEnds (old needle : Bytes) (live : List Poll) : Fate Bytes → Prop
  | found (k : Nat) (hk : k < live.length) (hit : Hit old needle live k)
      (first : ∀ j < k, ¬ Hit old needle live j)
      (short : ∀ j < k, (old ++ textAt live (j + 1)).length ≤ TRIMEXPECT) :
    BinEnds old needle live (.found k)
  | lost (k : Nat) (hk : k < live.length) (none : ∀ j ≤ k, ¬ Hit old needle live j)
      (long : TRIMEXPECT < (old ++ textAt live (k + 1)).length) :
    BinEnds old needle live (.lost k)
  | through (t : Bytes) (none : ∀ k < live.length, ¬ Hit old needle live k)
      (short : ∀ k < live.length, (old ++ textAt live (k + 1)).length ≤ TRIMEXPECT) :
    BinEnds old needle live (.through t)

section
variable {old needle : Bytes} {sz : Nat} {live : List Poll} {k : Nat} {t c : Bytes}

/-- `_baccum` is all that was there and all that came. -/
theorem kept_whole (hsz : 0 < sz) {bufs : List Bytes}
    (h : (binwaittScanner needle sz 0).kept old bufs = some t) : t = old ++ bufs.flatten := by
  have hstep : ∀ (t : Bytes) (pre : List Bytes) (c u : Bytes), t = old ++ pre.flatten →
      (binwaittScanner needle sz 0).keep t c = some u → u = old ++ (pre ++ [c]).flatten := by
    intro t pre c u ht hkeep
    rw [binTrim_eq_some hsz hkeep, ht]
    simp
  simpa using Scanner.kept_keeps hstep [] (by simp) h

theorem at_whole (hsz : 0 < sz)
    (h : (binwaittScanner needle sz 0).At old (live.map Poll.chunk) k t c) :
    t ++ c = old ++ textAt live (k + 1) := by
  obtain ⟨hkept, hc⟩ := h
  rw [List.getElem?_map] at hc
  obtain ⟨p, hp, rfl⟩ := Option.map_eq_some_iff.mp hc
  rw [kept_whole hsz hkept, flatten_take, textAt_succ hp, List.append_assoc]

theorem seenAt_hit (hsz : 0 < sz)
    (h : (binwaittScanner needle sz 0).At old (live.map Poll.chunk) k t c) :
    (binwaittScanner needle sz 0).SeenAt old (live.map Poll.chunk) k ↔ Hit old needle live k := by
  rw [h.seenAt_iff, Hit, ← at_whole hsz h]
  exact decide_eq_true_iff

theorem keep_short (hsz : 0 < sz)
    (h : (binwaittScanner needle sz 0).At old (live.map Poll.chunk) k t c) :
    ((binwaittScanner needle sz 0).keep t c).isSome ↔
      (old ++ textAt live (k + 1)).length ≤ TRIMEXPECT := by
  rw [← at_whole hsz h, ← Nat.not_lt, ← binTrim_eq_none hsz, Option.isSome_iff_ne_none]
  rfl

theorem binEnds (old needle : Bytes) (hsz : 0 < sz) (live : List Poll) :
    BinEnds old needle live
      ((binwaittScanner needle sz 0).scan old (live.map Poll.chunk)) := by
  have hends := (binwaittScanner needle sz 0).scan_ends old (live.map Poll.chunk)
  generalize (binwaittScanner needle sz 0).scan old (live.map Poll.chunk) = fate at hends
  cases hends with
  | found k hseen hfirst =>
    have hk : k < live.length := by simpa using hseen.lt
    obtain ⟨u, b, hat, -⟩ := id hseen
    have hbefore : ∀ j < k, ∃ t c,
        (binwaittScanner needle sz 0).At old (live.map Poll.chunk) j t c := fun j hj =>
      Scanner.at_of_kept hat.1 hj (by rw [List.length_map]; omega)
    refine .found k hk ((seenAt_hit hsz hat).mp hseen) (fun j hj => ?_) fun j hj => ?_
    · obtain ⟨t, c, hj'⟩ := hbefore j hj
      exact fun hhit => hfirst j hj ((seenAt_hit hsz hj').mpr hhit)
    · obtain ⟨t, c, hj'⟩ := hbefore j hj
      exact (keep_short hsz hj').mp (hj'.keep_isSome hat.1 hj)
  | lost k t c hat hlost hnone =>
    have hk : k < live.length := by simpa using hat.lt
    refine .lost k hk (fun j hj hhit => ?_) ?_
    · rcases Nat.lt_or_eq_of_le hj with hlt | rfl
      · obtain ⟨t', c', hj'⟩ := Scanner.at_of_kept hat.1 hlt (by rw [List.length_map]; omega)
        exact hnone j hj ((seenAt_hit hsz hj').mpr hhit)
      · exact hnone j le_rfl ((seenAt_hit hsz hat).mpr hhit)
    · rw [← at_whole hsz hat]
      exact (binTrim_eq_none hsz).mp hlost
  | through t hkept hnone =>
    have hall : (binwaittScanner needle sz 0).kept old
        ((live.map Poll.chunk).take live.length) = some t := by
      rw [← List.length_map (f := Poll.chunk), List.take_length]
      exact hkept
    have hat : ∀ k < live.length, ∃ t c,
        (binwaittScanner needle sz 0).At old (live.map Poll.chunk) k t c := fun k hk =>
      Scanner.at_of_kept hall hk (by rw [List.length_map]; exact hk)
    refine .through t (fun k hk => ?_) fun k hk => ?_
    · obtain ⟨u, b, hk'⟩ := hat k hk
      exact fun hhit => hnone k ((seenAt_hit hsz hk').mpr hhit)
    · obtain ⟨u, b, hk'⟩ := hat k hk
      exact (keep_short hsz hk').mp (hk'.keep_isSome hall hk)

end

/-! ## What a wait for bytes is for -/

/-- A call returns 0 exactly when `P` and 1 otherwise; while it waits, `P` is not
true. -/
def Tells (P : Prop) : Outcome Int → Prop
  | .ret v => (v = 0 ∧ P) ∨ (v = 1 ∧ ¬ P)
  | .thrown => False
  | .waiting => ¬ P

theorem tells_found {P : Prop} {late : Bool} {k : Nat} :
    Tells P (outcome late (.found k)) ↔ P := by
  simp [Tells, outcome]

theorem tells_lost {P : Prop} {late : Bool} {k : Nat} : ¬ Tells P (outcome late (.lost k)) := id

theorem tells_through {P : Prop} {late : Bool} {t : Bytes} :
    Tells P (outcome late (.through t)) ↔ ¬ P := by
  cases late <;> simp [Tells, outcome]

/-- The call tells whether the bytes it has consumed contain `a`. -/
def Answers (a : Bytes) (r : Result Int) : Prop := Tells (a <:+: r.drained.flatten) r.out

/-- `_baccum` is not over `TRIMEXPECT` before the needle is in it. -/
def Short (old needle : Bytes) (live : List Poll) : Prop :=
  ∀ k < live.length, (∀ j ≤ k, ¬ Hit old needle live j) →
    (old ++ textAt live (k + 1)).length ≤ TRIMEXPECT

theorem BinEnds.short_iff {old needle : Bytes} {live : List Poll} {fate : Fate Bytes}
    (h : BinEnds old needle live fate) : Short old needle live ↔ ∀ k, fate ≠ .lost k := by
  cases h with
  | found k hk hit first hshort =>
    refine ⟨fun _ _ => nofun, fun _ i hi hnone => ?_⟩
    exact hshort i (Nat.lt_of_not_le fun hle => hnone k hle hit)
  | lost k hk hnone hlong =>
    exact ⟨fun hshort => absurd (hshort k hk hnone) (Nat.not_le_of_lt hlong),
      fun hlost => absurd rfl (hlost k)⟩
  | through t hnone hshort => exact ⟨fun _ _ => nofun, fun _ k hk _ => hshort k hk⟩

/-- What has to hold of the bytes in `_baccum`, the array, the stack behind it
and the input: `_baccum` is not over `TRIMEXPECT` before the needle is in it, the
needle comes with bytes of this call that contain the array, and it does come
when they do. -/
structure Finds (old a needle : Bytes) (live : List Poll) : Prop where
  short : Short old needle live
  fresh : ∀ k < live.length, Hit old needle live k → (∀ j < k, ¬ Hit old needle live j) →
    a <:+: textAt live (k + 1)
  complete : (∀ k < live.length, ¬ Hit old needle live k) → ¬ a <:+: textAt live live.length

/-- How the scan ends decides what the call answers. -/
theorem answers_iff {old needle a : Bytes} {live : List Poll} {late : Bool} {fate : Fate Bytes}
    {r : Result Int} (hcall : Consumes live late fate r) (hends : BinEnds old needle live fate) :
    Answers a r ↔ Finds old a needle live := by
  have hshort := hends.short_iff
  obtain ⟨hout, hdrained⟩ := hcall
  unfold Answers
  cases hends with
  | found k hk hit first _ =>
    have hread : r.drained.flatten = textAt live (k + 1) := by rw [hdrained]; rfl
    rw [hout, hread, tells_found]
    constructor
    · intro hin
      refine ⟨hshort.mpr fun _ => nofun, fun i _ hit' first' => ?_, fun hnone => ?_⟩
      · rcases Nat.lt_trichotomy i k with hlt | rfl | hgt
        · exact absurd hit' (first i hlt)
        · exact hin
        · exact absurd hit (first' k hgt)
      · exact absurd hit (hnone k hk)
    · exact fun hfinds => hfinds.fresh k hk hit first
  | lost k _ _ _ =>
    rw [hout]
    exact ⟨fun h => (tells_lost h).elim, fun hfinds => (hshort.mp hfinds.short k rfl).elim⟩
  | through t hnone _ =>
    have hread : r.drained.flatten = textAt live live.length := by rw [hdrained]; rfl
    rw [hout, hread, tells_through]
    constructor
    · intro hno
      exact ⟨hshort.mpr fun _ => nofun, fun k hk hit _ => absurd hit (hnone k hk), fun _ => hno⟩
    · exact fun hfinds => hfinds.complete hnone

/-- **When `binwaitt` gives the right answer**, on a device with any past. -/
theorem binwaitt_answers_iff (d : Dev) {a : Bytes} (stack : Bytes) (to_ start : Int)
    (polls : List Poll) (hne : a ≠ []) (ha : a.length ≤ 256) :
    Answers a (binwaittOn d a stack to_ start polls) ↔
      Finds d.baccum a (cstr (a ++ stack)) (binPolls to_ start polls) := by
  rw [binwaittOn_eq d stack to_ start polls ha]
  exact answers_iff (binwaittLoop_consumes _ _ _ _ _ _ _)
    (binEnds d.baccum (cstr (a ++ stack)) (List.length_pos_iff.mpr hne) (binPolls to_ start polls))

theorem hit_iff {old a : Bytes} {live : List Poll} {k : Nat} (hne : a ≠ []) :
    Hit old a live k ↔ a <:+: old ++ textAt live (k + 1) := by
  refine ⟨And.right, fun hin => ⟨fun hnil => ?_, hin⟩⟩
  rw [hnil] at hin
  exact hne (List.infix_nil.mp hin)

theorem textAt_mono {live : List Poll} {j k : Nat} (h : j ≤ k) :
    textAt live j <:+: textAt live k :=
  ((List.take_prefix_take_left h).map Poll.chunk).flatten.isInfix

/-- If the array contains the needle, it does come when the array does, and at every
poll at which it has come the bytes of the call have to contain the array. -/
theorem finds_iff_of_contains {old a needle : Bytes} {live : List Poll} (hne : a ≠ [])
    (hsub : needle <:+: a) : Finds old a needle live ↔ Short old needle live ∧
      ∀ k < live.length, Hit old needle live k → a <:+: textAt live (k + 1) := by
  classical
  constructor
  · intro h
    refine ⟨h.short, fun k hk hit => ?_⟩
    -- the text only grows from the first such poll on
    have hle : Nat.find ⟨k, hit⟩ ≤ k := Nat.find_min' ⟨k, hit⟩ hit
    have hfresh := h.fresh _ (Nat.lt_of_le_of_lt hle hk) (Nat.find_spec ⟨k, hit⟩)
      fun j hj => Nat.find_min ⟨k, hit⟩ hj
    exact hfresh.trans (textAt_mono (Nat.succ_le_succ hle))
  · rintro ⟨hshort, hfresh⟩
    refine ⟨hshort, fun k hk hit _ => hfresh k hk hit, fun hnone hin => ?_⟩
    cases hlen : live.length with
    | zero =>
      rw [hlen] at hin
      exact hne (List.infix_nil.mp hin)
    | succ n =>
      rw [hlen] at hin hnone
      have hall : a <:+: old ++ textAt live (n + 1) := hin.trans (List.suffix_append _ _).isInfix
      exact hnone n (Nat.lt_succ_self n) ⟨((hit_iff hne).mpr hall).1, hsub.trans hall⟩

/-- With an array that ends where `find` stops, what `_baccum` held may not help: where
the array is in it and the bytes of the call together, it is in those bytes. -/
theorem finds_used_iff {old a : Bytes} {live : List Poll} (hne : a ≠ []) :
    Finds old a a live ↔ Short old a live ∧
      ∀ k < live.length, a <:+: old ++ textAt live (k + 1) → a <:+: textAt live (k + 1) := by
  simp only [finds_iff_of_contains hne (List.infix_refl a), hit_iff hne]

/-- With a zero byte in the array, the bytes before it are what is looked for: where
these are found, the bytes of the call have to contain the whole array. -/
theorem finds_zero_iff {old pre rest stack : Bytes} {live : List Poll} (h0 : 0 ∉ pre) :
    Finds old (pre ++ 0 :: rest) (cstr (pre ++ 0 :: rest ++ stack)) live ↔ Short old pre live ∧
      ∀ k < live.length, Hit old pre live k → pre ++ 0 :: rest <:+: textAt live (k + 1) := by
  have hcstr : cstr (pre ++ 0 :: rest ++ stack) = pre := by
    have hpre : ∀ b ∈ pre, (b != 0) = true := fun b hb => by
      simpa using fun hz : b = 0 => h0 (hz ▸ hb)
    rw [List.append_assoc, cstr, List.takeWhile_append_of_pos hpre]
    simp
  rw [hcstr]
  exact finds_iff_of_contains (by simp) (List.prefix_append _ _).isInfix

/-- With `_baccum` empty and an array that ends where `find` stops, the input may
only not be too long. -/
theorem finds_clean_iff {a : Bytes} {live : List Poll} (hne : a ≠ []) :
    Finds [] a a live ↔ ∀ k < live.length, (∀ j ≤ k, ¬ a <:+: textAt live (j + 1)) →
      (textAt live (k + 1)).length ≤ TRIMEXPECT := by
  rw [finds_used_iff hne]
  simp only [Short, hit_iff hne, List.nil_append]
  exact and_iff_left fun _ _ => id

/-- A call that finds `A` as soon as it has come. -/
def pollsA : List Poll := [⟨⟨0, 0, 0⟩, true, [0x41]⟩]

/-- A second call, on a line that is silent. -/
def silent : List Poll := [⟨⟨100, 0, 100⟩, true, []⟩]

/-- The object after the first call. -/
def afterA : Dev :=
  { Dev.init none with baccum := (binwaittOn (Dev.init none) [0x41] [0] 2000 0 pollsA).accum }

/-- It finds the `A` of the first call again. -/
theorem stale_bytes_found : ¬ Answers [0x41] (binwaittOn afterA [0x41] [0] 2000 100 silent) := by
  have hout : binwaittOn afterA [0x41] [0] 2000 100 silent = ⟨.ret 0, [0x41], [[]]⟩ := by decide
  rw [hout]
  intro h
  rcases h with ⟨-, hin⟩ | ⟨hv, -⟩
  · exact absurd hin (by decide)
  · cases hv

theorem binwaitt_answers_iff_A :
    Answers [0x41] (binwaittOn (Dev.init none) [0x41] [0] 2000 0 pollsA) ↔
      Finds [] [0x41] (cstr ([0x41] ++ [0])) (binPolls 2000 0 pollsA) :=
  binwaitt_answers_iff (Dev.init none) [0] 2000 0 pollsA (by simp) (by simp)

end Autocom.BinWait
