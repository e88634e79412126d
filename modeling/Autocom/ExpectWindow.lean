import Autocom.Expect
import Autocom.Lib.Window
import Mathlib.Data.List.Find
import Mathlib.Algebra.Order.BigOperators.Group.List
import Mathlib.Algebra.Order.Ring.Nat

/-! # The trimmed accumulator finds what an unbounded one would

`strwaitt` and `strstr` cut `_accum` down once it is over `TRIMEXPECT`. As long
as the cut keeps as many bytes as the pattern is long, the search sees the
concatenation of everything the call has drained (`Covers`). One lemma for each
loop body, then one for each loop by induction on the polls. -/
namespace Autocom.ExpectWindow
open Autocom.Lib.Window Autocom.Expect

/-- A pattern that `strwaitt` looks for literally and can always trim to. -/
structure Plain (expr : CString) : Prop where
  nonempty : expr.bytes ≠ []
  literal : expr.bytes.head? ≠ some 0x3f
  short : expr.bytes.length ≤ TRIMEXPECT

theorem trim_covers {n m : Nat} {accum seen : Bytes} (hc : Covers n accum seen)
    (hn : n ≤ m) (hm : m ≤ TRIMEXPECT) :
    ∃ trunc, trim m accum = some trunc ∧ Covers n trunc seen := by
  unfold trim
  by_cases hlong : accum.length > TRIMEXPECT
  · have hle : m ≤ accum.length := by omega
    rw [if_pos hlong, if_pos hle]
    exact ⟨_, rfl, hc.cut hn hle⟩
  · rw [if_neg hlong]
    exact ⟨_, rfl, hc⟩

/-! ## `strwaitt` -/

theorem strwaittBody_plain (regex : Regex) {expr : CString} {accum seen buf : Bytes}
    (hp : Plain expr) (hc : Covers expr.bytes.length accum seen)
    (hno : ¬ expr.bytes <:+: seen) (h0 : 0 ∉ buf) :
    (expr.bytes <:+: seen ++ buf ∧ ∃ a, strwaittBody regex expr accum buf = .found a) ∨
    (¬ expr.bytes <:+: seen ++ buf ∧ ∃ a, strwaittBody regex expr accum buf = .more a ∧
      Covers expr.bytes.length a (seen ++ buf)) := by
  have hiff := hc.infix_iff (c := buf) le_rfl hno
  have hmatch : matchExpr regex expr (accum ++ buf) =
      some (decide (expr.bytes <:+: accum ++ buf)) := if_neg hp.literal
  by_cases hin : expr.bytes <:+: seen ++ buf
  · left
    refine ⟨hin, accum ++ buf, ?_⟩
    unfold strwaittBody
    rw [cstr_eq_self h0]
    simp only [hmatch, decide_eq_true (hiff.mp hin)]
  · right
    obtain ⟨trunc, htrim, hcov⟩ := trim_covers (hc.append buf) le_rfl hp.short
    refine ⟨hin, trunc, ?_, hcov⟩
    unfold strwaittBody
    rw [cstr_eq_self h0]
    simp only [hmatch, decide_eq_false (fun h => hin (hiff.mpr h)), htrim]

/-- What a call that looks for a plain pattern has drained when it ends: a
match ends with the first buffer that completes an occurrence, a timeout has
seen none. -/
structure EndsRight (expr : CString) (seen : Bytes) (r : Result Int) : Prop where
  code : r.out = .ret 0 ∨ r.out = .ret 1 ∨ r.out = .waiting
  found : r.out = .ret 0 → expr.bytes <:+: seen ++ r.drained.flatten ∧
    ¬ expr.bytes <:+: seen ++ r.drained.dropLast.flatten
  missed : r.out ≠ .ret 0 → ¬ expr.bytes <:+: seen ++ r.drained.flatten

theorem EndsRight.after {expr : CString} {seen buf : Bytes} {r : Result Int}
    (h : EndsRight expr (seen ++ buf) r) (hno : ¬ expr.bytes <:+: seen ++ buf) :
    EndsRight expr seen (r.after buf) := by
  refine ⟨h.code, fun hr => ?_, fun hr => ?_⟩
  · obtain ⟨hin, hlast⟩ := h.found hr
    have hne : r.drained ≠ [] := by
      intro he
      rw [he] at hin
      exact hno (by simpa using hin)
    refine ⟨by simpa [List.append_assoc] using hin, ?_⟩
    rw [Result.after_drained, List.dropLast_cons_of_ne_nil hne]
    simpa [List.append_assoc] using hlast
  · simpa [List.append_assoc] using h.missed hr

theorem strwaittLoop_plain {regex : Regex} {expr : CString} (hp : Plain expr) (infinite : Bool)
    {polls : List Poll} (h0 : ∀ p ∈ polls, 0 ∉ p.chunk) {expire : Int} {accum seen : Bytes}
    (hc : Covers expr.bytes.length accum seen) (hno : ¬ expr.bytes <:+: seen) :
    EndsRight expr seen (strwaittLoop regex expr infinite expire accum polls) := by
  induction polls generalizing expire accum seen with
  | nil =>
    refine ⟨.inr (.inr rfl), ?_, fun _ => by simpa [strwaittLoop] using hno⟩
    intro h; cases h
  | cons p ps ih =>
    have h0' : ∀ q ∈ ps, 0 ∉ q.chunk := fun q hq => h0 q (by simp [hq])
    unfold strwaittLoop
    by_cases hgo : p.go p.alive expire = true
    · rw [if_pos hgo]
      by_cases hempty : p.chunk = []
      · simp only [if_pos hempty]
        exact ih h0' hc hno
      · simp only [if_neg hempty]
        rcases strwaittBody_plain regex hp hc hno (h0 p (by simp)) with
          ⟨hin, a, ha⟩ | ⟨hin, a, ha, hcov⟩
        · rw [ha]
          exact ⟨.inl rfl, fun _ => ⟨by simpa using hin, by simpa using hno⟩,
            fun h => absurd rfl h⟩
        · rw [ha]
          exact (ih h0' hcov hin).after hin
    · rw [if_neg hgo]
      refine ⟨.inr (.inl rfl), ?_, fun _ => by simpa using hno⟩
      intro h; cases h

/-- **The calls of `strwaitt` with a plain pattern end right.** -/
theorem strwaitt_plain {regex : Regex} {expr : CString} (hp : Plain expr) (to_ start : Int)
    {polls : List Poll} (h0 : ∀ p ∈ polls, 0 ∉ p.chunk) :
    EndsRight expr [] (strwaitt regex expr to_ start polls) := by
  have hno : ¬ expr.bytes <:+: ([] : Bytes) := fun h => hp.nonempty (List.infix_nil.mp h)
  unfold strwaitt
  split
  · exact strwaittLoop_plain hp true h0 (.refl _ _) hno
  · exact strwaittLoop_plain hp false h0 (.refl _ _) hno

/-! ## `strstr` -/

def totalLength (strings : List CString) : Nat := (strings.map fun t => t.bytes.length).sum

/-- A token array that `strstr` can look for: no empty token, and together no
longer than the accumulator may grow. -/
structure Tokens where
  strings : List CString
  nonempty : ∀ t ∈ strings, t.bytes ≠ []
  short : totalLength strings ≤ TRIMEXPECT

/-- The first token in array order that the text contains. -/
def firstToken (strings : List CString) (text : Bytes) : Option CString :=
  strings.find? fun t => decide (t.bytes <:+: text)

theorem firstToken_eq_none {strings : List CString} {text : Bytes} :
    firstToken strings text = none ↔ ∀ t ∈ strings, ¬ t.bytes <:+: text := by
  simp [firstToken]

theorem Tokens.none_nil (T : Tokens) : firstToken T.strings [] = none :=
  firstToken_eq_none.mpr fun t ht h => T.nonempty t ht (List.infix_nil.mp h)

/-- The `for` loop finds the first token, and sums all lengths if it finds none. -/
theorem scan_spec (strings : List CString) (accum : Bytes) (length : Nat) :
    (scan strings accum length).2 = firstToken strings accum ∧
    (scan strings accum length).1 ≤ length + totalLength strings ∧
    (firstToken strings accum = none →
      (scan strings accum length).1 = length + totalLength strings) := by
  induction strings generalizing length with
  | nil => exact ⟨rfl, by simp [scan], fun _ => by simp [scan, totalLength]⟩
  | cons token rest ih =>
    obtain ⟨hhit, hle, hall⟩ := ih (length + token.bytes.length)
    by_cases hin : token.bytes <:+: accum
    · have hfirst : firstToken (token :: rest) accum = some token := by
        simp [firstToken, hin]
      rw [scan, if_pos hin, hfirst]
      refine ⟨rfl, ?_, nofun⟩
      simp only [totalLength, List.map_cons, List.sum_cons]
      omega
    · have hfirst : firstToken (token :: rest) accum = firstToken rest accum := by
        simp [firstToken, hin]
      rw [scan, if_neg hin, hfirst]
      simp only [totalLength, List.map_cons, List.sum_cons] at hle hall ⊢
      exact ⟨hhit, by omega, fun h => by have := hall h; omega⟩

theorem length_le_total {strings : List CString} {t : CString} (h : t ∈ strings) :
    t.bytes.length ≤ totalLength strings :=
  List.le_sum_of_mem (List.mem_map_of_mem h)

/-- The windows of all tokens at once. -/
theorem firstToken_covers {strings : List CString} {accum seen : Bytes} (buf : Bytes)
    (hc : Covers (totalLength strings) accum seen) (hno : firstToken strings seen = none) :
    firstToken strings (accum ++ buf) = firstToken strings (seen ++ buf) := by
  refine List.find?_congr fun t ht => ?_
  have hiff := hc.infix_iff (c := buf) (length_le_total ht) (firstToken_eq_none.mp hno t ht)
  simp [hiff]

theorem strstrBody_spec (T : Tokens) {accum seen buf : Bytes}
    (hc : Covers (totalLength T.strings) accum seen) (hno : firstToken T.strings seen = none)
    (h0 : 0 ∉ buf) :
    ∃ trunc, strstrBody T.strings accum buf = (firstToken T.strings (seen ++ buf), some trunc) ∧
      (firstToken T.strings (seen ++ buf) = none →
        Covers (totalLength T.strings) trunc (seen ++ buf)) := by
  obtain ⟨hhit, hle, hall⟩ := scan_spec T.strings (accum ++ buf) 0
  rw [firstToken_covers buf hc hno] at hhit hall
  have hshort : (scan T.strings (accum ++ buf) 0).1 ≤ TRIMEXPECT :=
    (Nat.zero_add (totalLength T.strings) ▸ hle).trans T.short
  obtain ⟨trunc, htrim, -⟩ := trim_covers (.refl 0 (accum ++ buf)) (Nat.zero_le _) hshort
  refine ⟨trunc, ?_, fun hnone => ?_⟩
  · unfold strstrBody
    rw [cstr_eq_self h0]
    exact Prod.ext hhit htrim
  · have hsum : (scan T.strings (accum ++ buf) 0).1 = totalLength T.strings := by
      rw [hall hnone, Nat.zero_add]
    obtain ⟨trunc', htrim', hcov⟩ := trim_covers (hc.append buf) le_rfl (hsum ▸ hshort)
    rw [hsum, htrim'] at htrim
    exact Option.some.inj htrim ▸ hcov

/-- The clock does not run backwards over the polls. -/
def Clock : Int → List Poll → Prop
  | _, [] => True
  | now, p :: ps => now ≤ p.tick ∧ p.tick ≤ p.tick' ∧ Clock p.tick' ps

/-- Text polls of a running program: no zero byte in what arrived, `__alive`
true, the waiting hook absent. -/
structure Quiet (polls : List Poll) : Prop where
  text : ∀ p ∈ polls, 0 ∉ p.chunk
  alive : ∀ p ∈ polls, p.alive = true
  hook : ∀ p ∈ polls, p.hook = 0

theorem Quiet.tail {p : Poll} {ps : List Poll} (h : Quiet (p :: ps)) : Quiet ps :=
  ⟨fun q hq => h.text q (by simp [hq]), fun q hq => h.alive q (by simp [hq]),
    fun q hq => h.hook q (by simp [hq])⟩

theorem Quiet.go {p : Poll} {ps : List Poll} (h : Quiet (p :: ps)) (expire : Int) :
    p.go p.alive expire = decide (p.tick < expire) := by
  simp [Turn.go, h.alive p (by simp), h.hook p (by simp)]

/-- The polls of the call before its deadline. -/
def live (expire : Int) (polls : List Poll) : List Poll :=
  polls.takeWhile fun p => decide (p.tick < expire)

/-- What the first `k` polls found, as one text. -/
def textAt (polls : List Poll) (k : Nat) : Bytes := ((polls.take k).map Poll.chunk).flatten

/-- The buffers they drained. -/
def drainedBy (polls : List Poll) (k : Nat) : List Bytes :=
  ((polls.take k).map Poll.chunk).filter fun c => decide (c ≠ [])

/-- **What a call of `strstr` is for**: it stops at the first poll at which the
text of the call contains a token, and returns the first such token in array
order; when no poll before the deadline does, it returns the empty string. -/
structure Meets (strings : List CString) (polls : List Poll) (r : Result Bytes) : Prop where
  hit : ∀ k t, k ≤ polls.length → firstToken strings (textAt polls k) = some t →
    (∀ j < k, firstToken strings (textAt polls j) = none) →
    r.out = .ret t.bytes ∧ r.drained = drainedBy polls k
  miss : (∀ k ≤ polls.length, firstToken strings (textAt polls k) = none) → r.out = .ret []

/-- How the loop ends when it runs to its deadline: a first poll completed a
token, or none did and the static comes back as it was. -/
inductive Ends (strings : List CString) (seen : Bytes) (polls : List Poll) (ret : Bytes)
    (r : Result Bytes × Bytes) : Prop
  | hit (k : Nat) (t : CString) (bound : k ≤ polls.length)
      (first : firstToken strings (seen ++ textAt polls k) = some t)
      (before : ∀ j < k, firstToken strings (seen ++ textAt polls j) = none)
      (out : r.1.out = .ret t.bytes) (static : r.2 = t.bytes)
      (drained : r.1.drained = drainedBy polls k)
  | miss (none : ∀ k ≤ polls.length, firstToken strings (seen ++ textAt polls k) = none)
      (out : r.1.out = .ret ret) (static : r.2 = ret)

/-- One more poll in front that brought no token. -/
theorem Ends.cons {strings : List CString} {seen ret : Bytes} {p : Poll} {ps : List Poll}
    {r : Result Bytes × Bytes} {q : Result Bytes}
    (h : Ends strings (seen ++ p.chunk) ps ret r) (hno : firstToken strings seen = none)
    (hout : q.out = r.1.out)
    (hdrained : q.drained = drainedBy [p] 1 ++ r.1.drained) :
    Ends strings seen (p :: ps) ret (q, r.2) := by
  have htext : ∀ k, seen ++ textAt (p :: ps) (k + 1) = (seen ++ p.chunk) ++ textAt ps k := by
    intro k; simp [textAt]
  have hzero : seen ++ textAt (p :: ps) 0 = seen := by simp [textAt]
  cases h with
  | hit k t bound first before out static drained =>
    refine .hit (k + 1) t (by simpa using bound) (by rw [htext]; exact first) ?_
      (hout.trans out) static ?_
    · intro j hj
      cases j with
      | zero => rw [hzero]; exact hno
      | succ j => rw [htext]; exact before j (by omega)
    · rw [hdrained, drained]
      simp [drainedBy, List.filter_cons]
      split <;> rfl
  | miss none out static =>
    refine .miss ?_ (hout.trans out) static
    intro k hk
    cases k with
    | zero => rw [hzero]; exact hno
    | succ k => rw [htext]; exact none k (by simpa using hk)

theorem strstrLoop_past {strings : List CString} {expire : Int} {accum ret : Bytes} {p : Poll}
    {ps : List Poll} (h : expire ≤ p.tick) :
    strstrLoop strings expire accum ret (p :: ps) = (⟨.ret ret, accum, []⟩, ret) := by
  have hgo : p.go p.alive expire = false := by
    simp [Turn.go, not_lt.mpr h]
  unfold strstrLoop
  rw [if_neg (by simp [hgo])]

theorem strstrLoop_spec (T : Tokens) {polls : List Poll} {now expire : Int}
    {accum seen ret : Bytes} (hclock : Clock now polls) (hquiet : Quiet polls)
    (hend : ∃ p ∈ polls, expire ≤ p.tick) (hc : Covers (totalLength T.strings) accum seen)
    (hno : firstToken T.strings seen = none) :
    Ends T.strings seen (live expire polls) ret (strstrLoop T.strings expire accum ret polls) := by
  induction polls generalizing now accum seen with
  | nil => obtain ⟨p, hp, -⟩ := hend; cases hp
  | cons p ps ih =>
    by_cases hlate : expire ≤ p.tick
    · -- the deadline has passed
      have hlive : live expire (p :: ps) = [] := by simp [live, not_lt.mpr hlate]
      rw [strstrLoop_past hlate, hlive]
      refine .miss (fun k hk => ?_) rfl rfl
      have hk0 : k = 0 := by simpa using hk
      subst hk0
      simpa [textAt] using hno
    · have htick : p.tick < expire := by omega
      have hgo : p.go p.alive expire = true := by rw [hquiet.go]; exact decide_eq_true htick
      have hlive : live expire (p :: ps) = p :: live expire ps := by simp [live, htick]
      have hend' : ∃ q ∈ ps, expire ≤ q.tick := by
        obtain ⟨q, hq, hle⟩ := hend
        rcases List.mem_cons.mp hq with rfl | hq
        · exact absurd hle hlate
        · exact ⟨q, hq, hle⟩
      unfold strstrLoop
      rw [if_pos hgo, hlive]
      by_cases hempty : p.chunk = []
      · rw [if_pos hempty]
        have hrest := ih hclock.2.2 hquiet.tail hend' hc hno
        rw [← List.append_nil seen, ← hempty] at hrest
        exact hrest.cons hno rfl (by simp [drainedBy, hempty])
      · rw [if_neg hempty]
        obtain ⟨trunc, hbody, hcov⟩ := strstrBody_spec T hc hno (hquiet.text p (by simp))
        simp only [hbody]
        cases hfirst : firstToken T.strings (seen ++ p.chunk) with
        | none =>
          have hrest := ih hclock.2.2 hquiet.tail hend' (hcov hfirst) hfirst
          exact hrest.cons hno rfl (by simp [drainedBy, hempty])
        | some t =>
          -- the next poll reads a clock no earlier than the new deadline
          obtain ⟨q, rest, rfl⟩ : ∃ q rest, ps = q :: rest := by
            obtain ⟨q, hq, -⟩ := hend'
            exact List.exists_cons_of_ne_nil (List.ne_nil_of_mem hq)
          have hnext : p.tick' ≤ q.tick := hclock.2.2.1
          simp only [strstrLoop_past hnext]
          refine .hit 1 t (by simp) (by simpa [textAt] using hfirst) ?_ rfl rfl
            (by simp [drainedBy, hempty])
          intro j hj
          have hj0 : j = 0 := by omega
          subst hj0
          simpa [textAt] using hno

/-! ## A call after any history

`ret` is one variable for all calls on all devices, assigned when a token is
found and never cleared. -/

structure StrstrCall where
  strings : List CString
  tout : Int
  start : Int
  polls : List Poll

/-- The static `ret` after the calls of `history`, on whatever devices. -/
def retAfter (history : List StrstrCall) : Bytes :=
  history.foldl (fun ret c => (strstr c.strings c.tout c.start ret c.polls).2) []

/-- **A call of `strstr` does what it is for exactly when one of its own polls
completes a token or no earlier call has left one in `ret`.** A call that times
out after an earlier success returns the earlier token again. -/
theorem strstr_meets_iff (history : List StrstrCall) (T : Tokens) (tout start : Int)
    (polls : List Poll) (hclock : Clock start polls) (hquiet : Quiet polls)
    (hend : ∃ p ∈ polls, start + tout ≤ p.tick) :
    Meets T.strings (live (start + tout) polls)
        (strstr T.strings tout start (retAfter history) polls).1 ↔
      (∃ k ≤ (live (start + tout) polls).length,
        (firstToken T.strings (textAt (live (start + tout) polls) k)).isSome) ∨
      retAfter history = [] := by
  have hends : Ends T.strings [] (live (start + tout) polls) (retAfter history)
      (strstr T.strings tout start (retAfter history) polls) :=
    strstrLoop_spec T hclock hquiet hend (.refl _ _) T.none_nil
  cases hends with
  | hit k t bound first before out static drained =>
    simp only [List.nil_append] at first before
    refine ⟨fun _ => .inl ⟨k, bound, by rw [first]; rfl⟩, fun _ => ⟨?_, fun hnone => ?_⟩⟩
    · intro j t' hj hfirst hbefore
      -- the first poll that completes a token is unique
      have hjk : j = k := by
        rcases Nat.lt_trichotomy j k with hlt | heq | hgt
        · rw [before j hlt] at hfirst; cases hfirst
        · exact heq
        · rw [hbefore k hgt] at first; cases first
      subst hjk
      rw [first] at hfirst
      obtain rfl := Option.some.inj hfirst
      exact ⟨out, drained⟩
    · rw [hnone k bound] at first; cases first
  | miss none out static =>
    simp only [List.nil_append] at none
    constructor
    · intro hmeets
      have hret := out.symm.trans (hmeets.miss none)
      exact .inr (Outcome.ret.inj hret)
    · rintro (⟨k, hk, hsome⟩ | hret)
      · rw [none k hk] at hsome; cases hsome
      · refine ⟨fun k t hk hfirst _ => ?_, fun _ => by rw [out, hret]⟩
        rw [none k hk] at hfirst; cases hfirst

/-- The script of `flash.sss` sees `login` once and then a silent line. -/
def login : CString := ⟨[0x6c, 0x6f, 0x67, 0x69, 0x6e], by decide⟩

def seesLogin : StrstrCall where
  strings := [login]
  tout := 2000
  start := 0
  polls := [⟨⟨0, 0, 0⟩, true, login.bytes⟩, ⟨⟨16, 0, 16⟩, true, []⟩]

def silence : List Poll := [⟨⟨16, 0, 16⟩, true, []⟩, ⟨⟨2016, 0, 2016⟩, true, []⟩]

def loginTokens : Tokens := ⟨[login], by decide, by decide⟩

/-- The silent call returns `login` although it has received nothing. -/
theorem stale_token_returned :
    ¬ Meets [login] (live (16 + 2000) silence)
      (strstr [login] 2000 16 (retAfter [seesLogin]) silence).1 := by
  intro h
  have hnone : ∀ k ≤ (live (16 + 2000) silence).length,
      firstToken [login] (textAt (live (16 + 2000) silence) k) = none := by decide
  exact absurd (h.miss hnone) (by decide)

/-- `login` in two pieces, then the line is silent up to the deadline. -/
def pieces : List Poll :=
  [⟨⟨16, 0, 16⟩, true, [0x6c, 0x6f]⟩, ⟨⟨32, 0, 32⟩, true, [0x67, 0x69, 0x6e]⟩,
    ⟨⟨2032, 0, 2032⟩, true, []⟩]

theorem strstr_meets_iff_pieces :
    retAfter [seesLogin] = login.bytes ∧
      Meets [login] (live (16 + 2000) pieces)
        (strstr [login] 2000 16 (retAfter [seesLogin]) pieces).1 :=
  ⟨by decide, (strstr_meets_iff [seesLogin] loginTokens 2000 16 pieces (by simp [pieces, Clock])
    ⟨by decide, by decide, by decide⟩ ⟨⟨⟨2032, 0, 2032⟩, true, []⟩, by decide, by decide⟩).mpr
    (.inl ⟨2, by decide, by decide⟩)⟩

end Autocom.ExpectWindow
