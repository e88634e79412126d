import Autocom.Device
import Autocom.ExpectWindow
import Autocom.Lib.Scan

/-! # `strwaitt` stops at the first poll that completes a match

The loop scans what its polls find, with the trimmed accumulator for its state.
A plain pattern is found at the first poll at which the whole text of the call
contains it. -/
namespace Autocom.ExpectScan
open Autocom Autocom.Expect Autocom.ExpectWindow Autocom.Lib.Scan Autocom.Lib.Window

/-! ## The polls of a call -/

/-- The polls whose loop test holds, up to the first one where it does not. -/
def passed (infinite : Bool) : Int → List Poll → List Poll
  | _, [] => []
  | expire, p :: ps =>
    if p.go p.alive expire then
      p :: passed infinite (if infinite then p.tick' + SOMESEC else expire) ps
    else []

/-- The polls before the deadline, which moves along in a wait without end. -/
def inTime (infinite : Bool) : Int → List Poll → List Poll
  | _, [] => []
  | expire, p :: ps =>
    if p.tick < expire then
      p :: inTime infinite (if infinite then p.tick' + SOMESEC else expire) ps
    else []

theorem passed_eq_inTime (infinite : Bool) (expire : Int) {polls : List Poll}
    (h : Quiet polls) : passed infinite expire polls = inTime infinite expire polls := by
  induction polls generalizing expire with
  | nil => rfl
  | cons p ps ih =>
    unfold passed inTime
    rw [h.go]
    simp only [decide_eq_true_eq, ih _ h.tail]

theorem inTime_initial (infinite : Bool) (expire : Int) (polls : List Poll) :
    inTime infinite expire polls <+: polls := by
  induction polls generalizing expire with
  | nil => exact List.prefix_rfl
  | cons p ps ih =>
    unfold inTime
    split
    · exact List.cons_prefix_cons.mpr ⟨rfl, ih _⟩
    · exact List.nil_prefix

theorem textAt_succ {live : List Poll} {k : Nat} {p : Poll} (h : live[k]? = some p) :
    textAt live (k + 1) = textAt live k ++ p.chunk := by
  unfold textAt
  rw [List.take_add_one, h]
  simp

theorem drainedBy_cons (p : Poll) (live : List Poll) (k : Nat) :
    drainedBy (p :: live) (k + 1) = drainedBy [p] 1 ++ drainedBy live k := by
  simp [drainedBy, List.filter_cons]
  split <;> rfl

/-! ## The loop is a scan -/

def strwaittScanner (regex : Regex) (expr : CString) : Scanner Bytes Bytes where
  seen accum buf :=
    decide (buf ≠ []) && decide (matchExpr regex expr (accum ++ cstr buf) = some true)
  keep accum buf :=
    if buf = [] then some accum
    else (matchExpr regex expr (accum ++ cstr buf)).bind fun _ =>
      trim expr.bytes.length (accum ++ cstr buf)

/-- What the call returns; `late` says that a poll has seen the deadline pass. -/
def outcome (late : Bool) : Fate Bytes → Outcome Int
  | .found _ => .ret 0
  | .lost _ => .thrown
  | .through _ => if late then .ret 1 else .waiting

/-- How many of `n` polls it has used. -/
def used (n : Nat) : Fate Bytes → Nat
  | .found k => k + 1
  | .lost k => k + 1
  | .through _ => n

theorem outcome_next (late : Bool) (fate : Fate Bytes) :
    outcome late fate.next = outcome late fate := by
  cases fate <;> rfl

theorem used_next (n : Nat) (fate : Fate Bytes) : used (n + 1) fate.next = used n fate + 1 := by
  cases fate <;> rfl

structure Follows (live : List Poll) (late : Bool) (fate : Fate Bytes) (r : Result Int) :
    Prop where
  out : r.out = outcome late fate
  drained : r.drained = drainedBy live (used live.length fate)

theorem Follows.next {p : Poll} {live : List Poll} {late : Bool} {fate : Fate Bytes}
    {r r' : Result Int} (h : Follows live late fate r) (hout : r'.out = r.out)
    (hdrained : r'.drained = drainedBy [p] 1 ++ r.drained) :
    Follows (p :: live) late fate.next r' := by
  refine ⟨?_, ?_⟩
  · rw [hout, h.out, outcome_next]
  · rw [hdrained, h.drained, List.length_cons, used_next]
    exact (drainedBy_cons p live _).symm

theorem strwaittLoop_follows (regex : Regex) (expr : CString) (infinite : Bool)
    (polls : List Poll) (expire : Int) (accum : Bytes) :
    Follows (passed infinite expire polls)
      (decide ((passed infinite expire polls).length < polls.length))
      ((strwaittScanner regex expr).scan accum ((passed infinite expire polls).map Poll.chunk))
      (strwaittLoop regex expr infinite expire accum polls) := by
  induction polls generalizing expire accum with
  | nil => exact ⟨rfl, rfl⟩
  | cons p ps ih =>
    unfold strwaittLoop passed
    by_cases hgo : p.go p.alive expire = true
    · rw [if_pos hgo, if_pos hgo]
      generalize (if infinite = true then p.tick' + SOMESEC else expire) = expire'
      simp only [List.map_cons, Scanner.scan, List.length_cons, Nat.add_lt_add_iff_right]
      by_cases hempty : p.chunk = []
      · simp only [strwaittScanner, hempty, ne_eq, not_true_eq_false, decide_false,
          Bool.false_and, Bool.false_eq_true, if_false, if_true]
        exact (ih expire' accum).next rfl (by simp [drainedBy, hempty])
      · have hone : drainedBy [p] 1 = [p.chunk] := by simp [drainedBy, hempty]
        simp only [if_neg hempty, strwaittBody, strwaittScanner, decide_eq_true hempty,
          Bool.true_and]
        cases hmatch : matchExpr regex expr (accum ++ cstr p.chunk) with
        | none => exact ⟨rfl, hone.symm⟩
        | some b =>
          cases b with
          | true => exact ⟨rfl, hone.symm⟩
          | false =>
            cases htrim : trim expr.bytes.length (accum ++ cstr p.chunk) with
            | none => exact ⟨rfl, hone.symm⟩
            | some trunc => exact (ih expire' trunc).next rfl (by rw [hone]; rfl)
    · rw [if_neg hgo, if_neg hgo]
      exact ⟨rfl, rfl⟩

/-! ## What a wait is for -/

/-- The call returns 0 at the first poll at which the text of the call has a
match, and 1 when it reaches its deadline without one. -/
structure FirstMatch (S : Bytes → Prop) (live : List Poll) (late : Bool) (r : Result Int) :
    Prop where
  hit : ∀ k < live.length, S (textAt live (k + 1)) → (∀ j < k, ¬ S (textAt live (j + 1))) →
    r.out = .ret 0 ∧ r.drained = drainedBy live (k + 1)
  miss : (∀ k < live.length, ¬ S (textAt live (k + 1))) →
    r.out = if late then .ret 1 else .waiting

/-- A poll that finds input drains it. -/
theorem drainedBy_lt {live : List Poll} {j k : Nat} {p : Poll} (hjk : j ≤ k)
    (hp : live[k]? = some p) (hne : p.chunk ≠ []) :
    (drainedBy live j).length < (drainedBy live (k + 1)).length := by
  have hlast : drainedBy live (k + 1) = drainedBy live k ++ [p.chunk] := by
    simp [drainedBy, List.take_add_one, hp, hne]
  have hle : (drainedBy live j).length ≤ (drainedBy live k).length := by
    have hpre : live.take j <+: live.take k := List.take_prefix_take_left hjk
    exact ((hpre.map Poll.chunk).filter _).length_le
  rw [hlast, List.length_append, List.length_singleton]
  omega

/-- **The call does what it is for exactly when the scan is right** about the
polls whose text has a match. -/
theorem firstMatch_iff {S : Bytes → Prop} {live : List Poll} {late : Bool} {fate : Fate Bytes}
    {r : Result Int} (h : Follows live late fate r)
    (hfound : ∀ k, fate = .found k → S (textAt live (k + 1)) ∧
      ∃ p, live[k]? = some p ∧ p.chunk ≠ []) :
    FirstMatch S live late r ↔
      Scanner.Right (fun k => S (textAt live (k + 1))) live.length fate := by
  constructor
  · intro hfirst
    refine ⟨fun k hk hS hbefore => ?_, fun hnone => ?_⟩
    · obtain ⟨hout, hdrained⟩ := hfirst.hit k hk hS hbefore
      rw [h.out] at hout
      rw [h.drained] at hdrained
      cases fate with
      | found j =>
        obtain ⟨hSj, p, hp, hne⟩ := hfound j rfl
        rcases Nat.lt_trichotomy j k with hlt | rfl | hgt
        · exact absurd hSj (hbefore j hlt)
        · rfl
        · have hlen := drainedBy_lt (j := k + 1) hgt hp hne
          rw [← hdrained] at hlen
          exact absurd hlen (lt_irrefl _)
      | lost j => cases hout
      | through t => cases late <;> cases hout
    · have hout := hfirst.miss hnone
      rw [h.out] at hout
      cases fate with
      | found j =>
        obtain ⟨hSj, p, hp, -⟩ := hfound j rfl
        exact absurd hSj (hnone j (List.getElem?_eq_some_iff.mp hp).1)
      | lost j => cases late <;> cases hout
      | through t => exact ⟨t, rfl⟩
  · intro hright
    refine ⟨fun k hk hS hbefore => ?_, fun hnone => ?_⟩
    · have hfate := hright.hit k hk hS hbefore
      rw [h.out, h.drained, hfate]
      exact ⟨rfl, rfl⟩
    · obtain ⟨t, hfate⟩ := hright.miss hnone
      rw [h.out, hfate]
      rfl

/-- The call on an object with any past: its first statement clears `_accum`. -/
def strwaittOn (regex : Regex) (d : Dev) (expr : CString) (to_ start : Int)
    (polls : List Poll) : Result Int :=
  match startCall d start (.strwaitt expr (some to_)) with
  | (d, .strwaitt expr expire infinite _) =>
    strwaittLoop regex expr infinite expire d.accum polls
  | (d, _) => ⟨.waiting, d.accum, []⟩

/-- The polls of the call before its deadline. -/
def livePolls (to_ start : Int) (polls : List Poll) : List Poll :=
  inTime (deadline start to_).2 (deadline start to_).1 polls

theorem strwaittOn_eq (regex : Regex) (d : Dev) (expr : CString) (to_ start : Int)
    (polls : List Poll) :
    strwaittOn regex d expr to_ start polls = strwaitt regex expr to_ start polls := by
  unfold strwaittOn startCall strwaitt deadline
  simp only [Option.getD_some]
  split <;> rfl

theorem strwaittOn_follows (regex : Regex) (d : Dev) (expr : CString) (to_ start : Int)
    {polls : List Poll} (hq : Quiet polls) :
    Follows (livePolls to_ start polls)
      (decide ((livePolls to_ start polls).length < polls.length))
      ((strwaittScanner regex expr).scan [] ((livePolls to_ start polls).map Poll.chunk))
      (strwaittOn regex d expr to_ start polls) := by
  have hloop := strwaittLoop_follows regex expr (deadline start to_).2 polls
    (deadline start to_).1 []
  rw [passed_eq_inTime _ _ hq] at hloop
  exact hloop

theorem Quiet.live {polls : List Poll} (h : Quiet polls) (to_ start : Int) :
    ∀ c ∈ (livePolls to_ start polls).map Poll.chunk, 0 ∉ c := by
  intro c hc
  obtain ⟨p, hp, rfl⟩ := List.mem_map.mp hc
  exact h.text p ((inTime_initial _ _ _).subset hp)

/-- The first polls of a text are text. -/
theorem text_take {live : List Poll} (h : ∀ c ∈ live.map Poll.chunk, 0 ∉ c) (k : Nat) :
    ∀ c ∈ (live.take k).map Poll.chunk, 0 ∉ c := fun c hc =>
  h c (List.map_subset _ (List.take_subset k live) hc)

/-! ## What the scanner sees -/

section
variable {regex : Regex} {expr : CString} {live : List Poll}

/-- What the call has read when it comes to poll `k`. -/
theorem flatten_take (live : List Poll) (k : Nat) :
    ((live.map Poll.chunk).take k).flatten = textAt live k := by
  rw [← List.map_take]
  rfl

theorem trim_suffix {n : Nat} {accum trunc : Bytes} (h : trim n accum = some trunc) :
    trunc <:+ accum := by
  unfold trim at h
  split at h
  · split at h
    · exact Option.some.inj h ▸ List.drop_suffix _ _
    · cases h
  · exact Option.some.inj h ▸ List.suffix_rfl

/-- The accumulator is a tail of the text. -/
theorem at_suffix (h0 : ∀ c ∈ live.map Poll.chunk, 0 ∉ c) {k : Nat} {t c : Bytes}
    (h : (strwaittScanner regex expr).At [] (live.map Poll.chunk) k t c) :
    t <:+ textAt live k := by
  have hstep : ∀ (t : Bytes) (pre : List Bytes) (c u : Bytes),
      ((∀ b ∈ pre, 0 ∉ b) → t <:+ pre.flatten) →
      (strwaittScanner regex expr).keep t c = some u →
      (∀ b ∈ pre ++ [c], 0 ∉ b) → u <:+ (pre ++ [c]).flatten := by
    intro t pre c u hi hkeep hpre
    have hc : 0 ∉ c := hpre c (by simp)
    have ht : t <:+ pre.flatten := hi fun b hb => hpre b (by simp [hb])
    simp only [strwaittScanner] at hkeep
    rw [List.flatten_append, List.flatten_singleton]
    split at hkeep
    · next hempty =>
      rw [hempty, List.append_nil, ← Option.some.inj hkeep]
      exact ht
    · obtain ⟨b, -, htrim⟩ := Option.bind_eq_some_iff.mp hkeep
      rw [cstr_eq_self hc] at htrim
      exact (trim_suffix htrim).trans (List.suffix_append_self_iff.mpr ht)
  have hkept := Scanner.kept_keeps hstep [] (fun _ => List.suffix_rfl) h.1
  rw [← flatten_take]
  exact hkept fun b hb => h0 b (List.mem_of_mem_take hb)

theorem seenAt_iff (h0 : ∀ c ∈ live.map Poll.chunk, 0 ∉ c) {k : Nat} :
    (strwaittScanner regex expr).SeenAt [] (live.map Poll.chunk) k ↔
      ∃ t p, (strwaittScanner regex expr).kept [] ((live.take k).map Poll.chunk) = some t ∧
        live[k]? = some p ∧ p.chunk ≠ [] ∧
        matchExpr regex expr (t ++ p.chunk) = some true := by
  have hcstr : ∀ {p : Poll}, live[k]? = some p → cstr p.chunk = p.chunk := fun hp =>
    cstr_eq_self (h0 _ (List.mem_map_of_mem (List.mem_of_getElem? hp)))
  constructor
  · rintro ⟨t, c, ⟨hkept, hc⟩, hseen⟩
    rw [List.getElem?_map] at hc
    obtain ⟨p, hp, rfl⟩ := Option.map_eq_some_iff.mp hc
    simp only [strwaittScanner, Bool.and_eq_true, decide_eq_true_eq, hcstr hp] at hseen
    exact ⟨t, p, by rw [List.map_take]; exact hkept, hp, hseen⟩
  · rintro ⟨t, p, hkept, hp, hne, hmatch⟩
    refine ⟨t, p.chunk, ⟨by rw [← List.map_take]; exact hkept, by simp [hp]⟩, ?_⟩
    simp [strwaittScanner, hne, hcstr hp, hmatch]

/-- A search that is true of a text is true of every longer one. -/
theorem seenAt_text {S : Bytes → Prop} (hmatch : ∀ a, matchExpr regex expr a = some true → S a)
    (hmono : ∀ a b, a <:+: b → S a → S b) (h0 : ∀ c ∈ live.map Poll.chunk, 0 ∉ c) {k : Nat}
    (h : (strwaittScanner regex expr).SeenAt [] (live.map Poll.chunk) k) :
    S (textAt live (k + 1)) ∧ ∃ p, live[k]? = some p ∧ p.chunk ≠ [] := by
  obtain ⟨t, p, hkept, hp, hne, hsearch⟩ := (seenAt_iff h0).mp h
  have hat : (strwaittScanner regex expr).At [] (live.map Poll.chunk) k t p.chunk :=
    ⟨by rw [← List.map_take]; exact hkept, by simp [hp]⟩
  have htail : t ++ p.chunk <:+ textAt live (k + 1) := by
    rw [textAt_succ hp]
    exact List.suffix_append_self_iff.mpr (at_suffix h0 hat)
  exact ⟨hmono _ _ htail.isInfix (hmatch _ hsearch), p, hp, hne⟩

end

/-- The call is the scan of its polls. -/
theorem strwaittOn_firstMatch_iff {regex : Regex} {expr : CString} {S : Bytes → Prop} (d : Dev)
    (to_ start : Int) {polls : List Poll} (hq : Quiet polls)
    (hmatch : ∀ a, matchExpr regex expr a = some true → S a)
    (hmono : ∀ a b, a <:+: b → S a → S b) :
    FirstMatch S (livePolls to_ start polls)
        (decide ((livePolls to_ start polls).length < polls.length))
        (strwaittOn regex d expr to_ start polls) ↔
      Scanner.Right (fun k => S (textAt (livePolls to_ start polls) (k + 1)))
        ((livePolls to_ start polls).map Poll.chunk).length
        ((strwaittScanner regex expr).scan [] ((livePolls to_ start polls).map Poll.chunk)) := by
  rw [List.length_map]
  exact firstMatch_iff (strwaittOn_follows regex d expr to_ start hq) fun k hk =>
    seenAt_text hmatch hmono (Quiet.live hq to_ start) (Scanner.seenAt_of_found hk)

/-! ## What the accumulator holds -/

/-- What `_accum` holds after the chunks when no match has ended the call;
`none` when a cut asks for more than is there. -/
def held (n : Nat) : Bytes → List Bytes → Option Bytes
  | accum, [] => some accum
  | accum, buf :: bufs =>
    if buf = [] then held n accum bufs
    else (trim n (accum ++ buf)).bind fun trunc => held n trunc bufs

theorem held_cons {n : Nat} {accum buf : Bytes} (bufs : List Bytes) (h : buf ≠ []) :
    held n accum (buf :: bufs) = (trim n (accum ++ buf)).bind fun trunc => held n trunc bufs :=
  if_neg h

theorem kept_held {regex : Regex} {expr : CString}
    (hvalid : ∀ a, ∃ b, matchExpr regex expr a = some b) {bufs : List Bytes}
    (h0 : ∀ c ∈ bufs, 0 ∉ c) (accum : Bytes) :
    (strwaittScanner regex expr).kept accum bufs = held expr.bytes.length accum bufs := by
  induction bufs generalizing accum with
  | nil => rfl
  | cons c cs ih =>
    have ih' := ih fun b hb => h0 b (by simp [hb])
    rw [Scanner.kept_cons]
    unfold held
    by_cases hempty : c = []
    · simp [strwaittScanner, hempty, ← ih']
    · obtain ⟨b, hb⟩ := hvalid (accum ++ c)
      simp [strwaittScanner, hempty, hb, cstr_eq_self (h0 c (by simp)), ← ih']

/-- Cuts to `n` bytes keep a tail that covers the text for patterns of `n` bytes,
for every cutting of the stream. -/
theorem held_covers {n : Nat} (hn : n ≤ TRIMEXPECT) (bufs : List Bytes) {accum seen : Bytes}
    (hc : Covers n accum seen) :
    ∃ t, held n accum bufs = some t ∧ Covers n t (seen ++ bufs.flatten) := by
  induction bufs generalizing accum seen with
  | nil => exact ⟨accum, rfl, by simpa using hc⟩
  | cons c cs ih =>
    unfold held
    by_cases hempty : c = []
    · obtain ⟨t, ht, hcov⟩ := ih hc
      exact ⟨t, by rw [if_pos hempty, ht], by simpa [hempty] using hcov⟩
    · obtain ⟨trunc, htrim, hcov⟩ := trim_covers (hc.append c) le_rfl hn
      obtain ⟨t, ht, hcov'⟩ := ih hcov
      exact ⟨t, by rw [if_neg hempty, htrim]; exact ht, by simpa using hcov'⟩

/-! ## A plain pattern -/

section
variable {regex : Regex} {expr : CString}

theorem matchExpr_plain (regex : Regex) (hp : Plain expr) (accum : Bytes) :
    matchExpr regex expr accum = some (decide (expr.bytes <:+: accum)) := if_neg hp.literal

theorem plain_infix (hp : Plain expr) {a : Bytes} (h : matchExpr regex expr a = some true) :
    expr.bytes <:+: a := by
  rw [matchExpr_plain regex hp] at h
  exact of_decide_eq_true (Option.some.inj h)

theorem kept_plain (regex : Regex) (hp : Plain expr) {bufs : List Bytes}
    (h0 : ∀ c ∈ bufs, 0 ∉ c) : ∃ t, (strwaittScanner regex expr).kept [] bufs = some t ∧
      Covers expr.bytes.length t bufs.flatten := by
  rw [kept_held (fun a => ⟨_, matchExpr_plain regex hp a⟩) h0]
  exact held_covers hp.short bufs (.refl _ [])

/-- **The trimmed accumulator is right**: the scan ends at the first poll at
which the text contains the pattern. -/
theorem scan_plain (regex : Regex) (hp : Plain expr) {live : List Poll}
    (h0 : ∀ c ∈ live.map Poll.chunk, 0 ∉ c) :
    Scanner.Right (fun k => expr.bytes <:+: textAt live (k + 1)) (live.map Poll.chunk).length
      ((strwaittScanner regex expr).scan [] (live.map Poll.chunk)) := by
  refine (Scanner.scan_right_iff fun k hk =>
    (seenAt_text (fun _ => plain_infix hp) (fun _ _ hab ha => ha.trans hab) h0 hk).1).mpr
      ⟨fun k hk hin hbefore => ?_, fun _ => ?_⟩
  · rw [List.length_map] at hk
    obtain ⟨p, hp'⟩ : ∃ p, live[k]? = some p := ⟨_, List.getElem?_eq_getElem hk⟩
    have hno : ¬ expr.bytes <:+: textAt live k := by
      cases k with
      | zero => exact fun h => hp.nonempty (List.infix_nil.mp h)
      | succ k => exact hbefore k (Nat.lt_succ_self k)
    obtain ⟨t, hkept, hcov⟩ := kept_plain regex hp (text_take h0 k)
    rw [textAt_succ hp'] at hin
    have hne : p.chunk ≠ [] := by
      intro hempty
      rw [hempty, List.append_nil] at hin
      exact hno hin
    refine (seenAt_iff h0).mpr ⟨t, p, hkept, hp', hne, ?_⟩
    rw [matchExpr_plain regex hp, decide_eq_true ((hcov.infix_iff le_rfl hno).mp hin)]
  · obtain ⟨t, hkept, -⟩ := kept_plain regex hp h0
    rw [hkept]
    rfl

/-- **A plain pattern is found at the first poll whose text contains it**, on a
device with any past, however the stream is cut and however often the
accumulator is. -/
theorem strwaitt_first_match (regex : Regex) (hp : Plain expr) (d : Dev) (to_ start : Int)
    {polls : List Poll} (hq : Quiet polls) :
    FirstMatch (fun text => expr.bytes <:+: text) (livePolls to_ start polls)
      (decide ((livePolls to_ start polls).length < polls.length))
      (strwaittOn regex d expr to_ start polls) :=
  (strwaittOn_firstMatch_iff d to_ start hq (fun _ => plain_infix hp)
    fun _ _ hab ha => ha.trans hab).mpr (scan_plain regex hp (Quiet.live hq to_ start))

end

/-- More than `TRIMEXPECT` bytes of a boot log, and then `login` in two pieces. -/
def bootPolls : List Poll :=
  [⟨⟨0, 0, 0⟩, true, List.replicate (TRIMEXPECT + 1) 0x2e⟩, ⟨⟨16, 0, 16⟩, true, [0x6c, 0x6f]⟩,
    ⟨⟨32, 0, 32⟩, true, [0x67, 0x69, 0x6e]⟩]

theorem quiet_bootPolls : Quiet bootPolls := by
  refine ⟨fun p hp => ?_, by simp [bootPolls], by simp [bootPolls]⟩
  simp only [bootPolls, List.mem_cons, List.not_mem_nil, or_false] at hp
  rcases hp with rfl | rfl | rfl <;> simp

theorem strwaitt_first_match_bootPolls :
    FirstMatch (fun text => login.bytes <:+: text) (livePolls 2000 0 bootPolls)
      (decide ((livePolls 2000 0 bootPolls).length < bootPolls.length))
      (strwaittOn (fun _ => none) (Dev.init none) login 2000 0 bootPolls) :=
  strwaitt_first_match (fun _ => none) ⟨by decide, by decide, by decide⟩ (Dev.init none) 2000 0
    quiet_bootPolls

end Autocom.ExpectScan
