import Autocom.BinWait

/-! # What the trims subtract

`strwaitt`, `strstr` and `binwaitt` cut an accumulator that is over `TRIMEXPECT`
to a tail or a head whose offset or count is a difference of two unsigned sizes:
of the length of the accumulator and of the pattern, of the tokens looked at, or
of the array, and in `binwaitt` the minuend is another accumulator, which is
empty. Only the first cut of a call can go below zero, since after it the
accumulator is as long as what is subtracted. -/
namespace Autocom.Trims
open Autocom Autocom.Expect Autocom.ExpectWindow Autocom.ExpectScan Autocom.BinWait
open Autocom.Lib.Scan

/-- A cut computes `minuend - subtrahend`, to cut a string of `length` bytes. -/
structure Cut where
  minuend : Nat
  subtrahend : Nat
  length : Nat
  deriving DecidableEq

/-- The difference does not go below zero and is not past the string. -/
def Cut.Inside (c : Cut) : Prop :=
  c.subtrahend ≤ c.minuend ∧ c.minuend - c.subtrahend ≤ c.length

instance (c : Cut) : Decidable c.Inside := inferInstanceAs (Decidable (_ ∧ _))

/-- For the sizes that strings have, this is what the `size_t` of the code says. -/
theorem Cut.inside_iff {c : Cut} (hminuend : c.minuend ≤ c.length) (hlength : c.length < 2 ^ 63)
    (hsubtrahend : c.subtrahend < 2 ^ 63) : c.Inside ↔
      (BitVec.ofNat 64 c.minuend - BitVec.ofNat 64 c.subtrahend).toNat ≤ c.length := by
  have hm : c.minuend % 2 ^ 64 = c.minuend := Nat.mod_eq_of_lt (by omega)
  have hs : c.subtrahend % 2 ^ 64 = c.subtrahend := Nat.mod_eq_of_lt (by omega)
  rw [BitVec.toNat_sub, BitVec.toNat_ofNat, BitVec.toNat_ofNat, hm, hs]
  unfold Cut.Inside
  omega

/-! ## The cut of one turn -/

/-- `strwaitt` cuts a text without a match. -/
def strwaittCut (regex : Regex) (expr : CString) (accum : Bytes) : Option Cut :=
  if matchExpr regex expr accum = some false ∧ accum.length > TRIMEXPECT then
    some ⟨accum.length, expr.bytes.length, accum.length⟩
  else none

/-- `strstr` cuts whether or not it has found a token. -/
def strstrCut (strings : List CString) (accum : Bytes) : Option Cut :=
  if accum.length > TRIMEXPECT then some ⟨accum.length, (scan strings accum 0).1, accum.length⟩
  else none

def binwaittCut (needle : Bytes) (sz accumLen : Nat) (baccum : Bytes) : Option Cut :=
  if baccum ≠ [] ∧ needle <:+: baccum then none
  else if baccum.length > TRIMEXPECT then some ⟨accumLen, sz, baccum.length⟩
  else none

/-! A cut that is not inside throws. -/

theorem trim_thrown_iff (n : Nat) (accum : Bytes) : trim n accum = none ↔
    ∃ x, (if accum.length > TRIMEXPECT then some ⟨accum.length, n, accum.length⟩ else none) =
      some x ∧ ¬ Cut.Inside x := by
  unfold trim
  split
  · have hinside : (Cut.mk accum.length n accum.length).Inside ↔ n ≤ accum.length :=
      and_iff_left (Nat.sub_le _ _)
    simp [hinside]
  · simp

theorem strwaittBody_thrown_iff (regex : Regex) (expr : CString) (accum buf : Bytes) :
    strwaittBody regex expr accum buf = .thrown ↔
      matchExpr regex expr (accum ++ cstr buf) = none ∨
        ∃ x, strwaittCut regex expr (accum ++ cstr buf) = some x ∧ ¬ x.Inside := by
  unfold strwaittBody strwaittCut
  generalize accum ++ cstr buf = text
  cases hmatch : matchExpr regex expr text with
  | none => simp [hmatch]
  | some b =>
    cases b with
    | true => simp [hmatch]
    | false =>
      simp only [hmatch, true_and, reduceCtorEq, false_or]
      rw [← trim_thrown_iff]
      cases trim expr.bytes.length text <;> simp

theorem strstrBody_thrown_iff (strings : List CString) (accum buf : Bytes) :
    (strstrBody strings accum buf).2 = none ↔
      ∃ x, strstrCut strings (accum ++ cstr buf) = some x ∧ ¬ x.Inside :=
  trim_thrown_iff (scan strings (accum ++ cstr buf) 0).1 (accum ++ cstr buf)

theorem binwaittBody_thrown_iff (needle : Bytes) (sz accumLen : Nat) (baccum : Bytes) :
    binwaittBody needle sz accumLen baccum = .thrown ↔
      ∃ x, binwaittCut needle sz accumLen baccum = some x ∧ ¬ x.Inside := by
  simp only [binwaittBody, binwaittCut]
  split
  · simp
  · split
    · next hlong =>
      simp only [Option.some.injEq, exists_eq_left', Cut.Inside]
      split <;> simp_all
    · simp

/-! ## The cuts of a call -/

def strwaittCuts (regex : Regex) (expr : CString) (infinite : Bool) :
    Int → Bytes → List Poll → List Cut
  | _, _, [] => []
  | expire, accum, p :: ps =>
    if p.go p.alive expire then
      let expire := if infinite then p.tick' + SOMESEC else expire
      if p.chunk = [] then strwaittCuts regex expr infinite expire accum ps
      else (strwaittCut regex expr (accum ++ cstr p.chunk)).toList ++
        match strwaittBody regex expr accum p.chunk with
        | .more accum => strwaittCuts regex expr infinite expire accum ps
        | _ => []
    else []

def strstrCuts (strings : List CString) : Int → Bytes → List Poll → List Cut
  | _, _, [] => []
  | expire, accum, p :: ps =>
    if p.go p.alive expire then
      if p.chunk = [] then strstrCuts strings expire accum ps
      else (strstrCut strings (accum ++ cstr p.chunk)).toList ++
        match strstrBody strings accum p.chunk with
        | (hit, some accum) =>
          strstrCuts strings (if hit.isSome then p.tick' else expire) accum ps
        | (_, none) => []
    else []

def binwaittCuts (needle : Bytes) (sz accumLen : Nat) (infinite : Bool) :
    Int → Bytes → List Poll → List Cut
  | _, _, [] => []
  | expire, baccum, p :: ps =>
    if p.go p.alive expire then
      let expire := if infinite then p.tick' + SOMESEC else expire
      (binwaittCut needle sz accumLen (baccum ++ p.chunk)).toList ++
        match binwaittBody needle sz accumLen (baccum ++ p.chunk) with
        | .more baccum => binwaittCuts needle sz accumLen infinite expire baccum ps
        | _ => []
    else []

/-- The cuts of a call on an object with any past. -/
def callCuts (regex : Regex) (d : Dev) (start : Int) (polls : List Poll) (c : Call) : List Cut :=
  match startCall d start c with
  | (d, .strwaitt expr expire infinite _) => strwaittCuts regex expr infinite expire d.accum polls
  | (d, .strstr strings expire _) => strstrCuts strings expire d.accum polls
  | (d, .binwaitt needle sz expire infinite) =>
    binwaittCuts needle sz d.accum.length infinite expire d.baccum polls
  | _ => []

/-! ## A call is a scan that notes its cuts -/

/-- A wait for text: it ends at a text that `ends` accepts, and keeps `n` bytes. -/
def textScanner (ends : Bytes → Bool) (n : Nat) : Scanner Bytes Bytes where
  seen accum buf := decide (buf ≠ []) && ends (accum ++ cstr buf)
  keep accum buf := if buf = [] then some accum else trim n (accum ++ cstr buf)

/-- A poll that finds nothing cuts nothing. -/
def fetchCut (cut : Bytes → Option Cut) (accum buf : Bytes) : Option Cut :=
  if buf = [] then none else cut (accum ++ cstr buf)

section
variable {ends : Bytes → Bool} {n : Nat} {cut : Bytes → Option Cut} {accum buf : Bytes}
  {bufs : List Bytes}

theorem trace_idle : (textScanner ends n).trace (fetchCut cut) accum ([] :: bufs) =
    (textScanner ends n).trace (fetchCut cut) accum bufs := by
  simp [Scanner.trace, textScanner, fetchCut]

theorem trace_fetch (hbuf : buf ≠ []) :
    (textScanner ends n).trace (fetchCut cut) accum (buf :: bufs) =
      (cut (accum ++ cstr buf)).toList ++ if ends (accum ++ cstr buf) then []
        else (trim n (accum ++ cstr buf)).elim []
          fun trunc => (textScanner ends n).trace (fetchCut cut) trunc bufs := by
  have hseen : (textScanner ends n).seen accum buf = ends (accum ++ cstr buf) := by
    simp [textScanner, hbuf]
  have hkeep : (textScanner ends n).keep accum buf = trim n (accum ++ cstr buf) := if_neg hbuf
  have hcut : fetchCut cut accum buf = cut (accum ++ cstr buf) := if_neg hbuf
  rw [Scanner.trace, hseen, hkeep, hcut]
  cases trim n (accum ++ cstr buf) <;> rfl

end

/-- A match ends the call, and so does an invalid expression. -/
def strwaittEnds (regex : Regex) (expr : CString) (accum : Bytes) : Bool :=
  decide (matchExpr regex expr accum ≠ some false)

def strstrEnds (strings : List CString) (accum : Bytes) : Bool :=
  (scan strings accum 0).2.isSome

theorem strwaittCuts_eq (regex : Regex) (expr : CString) (infinite : Bool) (polls : List Poll)
    (expire : Int) (accum : Bytes) : strwaittCuts regex expr infinite expire accum polls =
      (textScanner (strwaittEnds regex expr) expr.bytes.length).trace
        (fetchCut (strwaittCut regex expr)) accum
        ((passed infinite expire polls).map Poll.chunk) := by
  induction polls generalizing expire accum with
  | nil => rfl
  | cons p ps ih =>
    unfold strwaittCuts passed
    by_cases hgo : p.go p.alive expire = true
    · rw [if_pos hgo, if_pos hgo]
      generalize (if infinite = true then p.tick' + SOMESEC else expire) = expire'
      rw [List.map_cons]
      by_cases hempty : p.chunk = []
      · simp only [if_pos hempty]
        rw [hempty, trace_idle]
        exact ih expire' accum
      · simp only [if_neg hempty]
        rw [trace_fetch hempty]
        congr 1
        cases hmatch : matchExpr regex expr (accum ++ cstr p.chunk) with
        | none => simp only [strwaittBody, strwaittEnds, hmatch]; rfl
        | some b =>
          cases b with
          | true => simp only [strwaittBody, strwaittEnds, hmatch]; rfl
          | false =>
            have hends : strwaittEnds regex expr (accum ++ cstr p.chunk) = false := by
              simp [strwaittEnds, hmatch]
            simp only [strwaittBody, hmatch, hends, Bool.false_eq_true, if_false]
            cases htrim : trim expr.bytes.length (accum ++ cstr p.chunk) with
            | none => rfl
            | some trunc => exact ih expire' trunc
    · rw [if_neg hgo, if_neg hgo]
      rfl

/-- Past its deadline the loop makes no turn. -/
theorem strstrCuts_past {strings : List CString} {expire : Int} {accum : Bytes} {p : Poll}
    {ps : List Poll} (h : expire ≤ p.tick) : strstrCuts strings expire accum (p :: ps) = [] := by
  have hgo : p.go p.alive expire = false := by
    unfold Turn.go
    rw [decide_eq_false (Int.not_lt.mpr h)]
    rfl
  unfold strstrCuts
  rw [hgo]
  rfl

theorem strstrCuts_eq (strings : List CString) {now : Int} {polls : List Poll}
    (hclock : Clock now polls) (expire : Int) (accum : Bytes) :
    strstrCuts strings expire accum polls =
      (textScanner (strstrEnds strings) (totalLength strings)).trace
        (fetchCut (strstrCut strings)) accum
        ((passed false expire polls).map Poll.chunk) := by
  induction polls generalizing now expire accum with
  | nil => rfl
  | cons p ps ih =>
    unfold strstrCuts passed
    by_cases hgo : p.go p.alive expire = true
    · rw [if_pos hgo, if_pos hgo, List.map_cons]
      by_cases hempty : p.chunk = []
      · rw [if_pos hempty, hempty, trace_idle]
        exact ih hclock.2.2 expire accum
      · rw [if_neg hempty, trace_fetch hempty]
        congr 1
        obtain ⟨hfirst, -, hall⟩ := scan_spec strings (accum ++ cstr p.chunk) 0
        obtain ⟨⟨length, hit⟩, hscan⟩ : ∃ r, scan strings (accum ++ cstr p.chunk) 0 = r := ⟨_, rfl⟩
        rw [hscan] at hfirst hall
        simp only [strstrBody, strstrEnds, hscan]
        cases hit with
        | none =>
          obtain rfl : length = totalLength strings := (hall hfirst.symm).trans (Nat.zero_add _)
          cases htrim : trim (totalLength strings) (accum ++ cstr p.chunk) with
          | none => rfl
          | some trunc => exact ih hclock.2.2 expire trunc
        | some token =>
          cases htrim : trim length (accum ++ cstr p.chunk) with
          | none => rfl
          | some trunc =>
            -- the deadline is now, and the next turn reads a clock no earlier
            cases ps with
            | nil => rfl
            | cons q ps => exact strstrCuts_past hclock.2.2.1
    · rw [if_neg hgo, if_neg hgo]
      rfl

theorem binwaittCuts_eq (needle : Bytes) (sz accumLen : Nat) (infinite : Bool)
    (polls : List Poll) (expire : Int) (baccum : Bytes) :
    binwaittCuts needle sz accumLen infinite expire baccum polls =
      (binwaittScanner needle sz accumLen).trace
        (fun baccum buf => binwaittCut needle sz accumLen (baccum ++ buf)) baccum
        ((passed infinite expire polls).map Poll.chunk) := by
  induction polls generalizing expire baccum with
  | nil => rfl
  | cons p ps ih =>
    unfold binwaittCuts passed
    by_cases hgo : p.go p.alive expire = true
    · rw [if_pos hgo, if_pos hgo]
      generalize (if infinite = true then p.tick' + SOMESEC else expire) = expire'
      simp only [List.map_cons, Scanner.trace, binwaittBody_eq]
      congr 1
      by_cases hseen : (binwaittScanner needle sz accumLen).seen baccum p.chunk = true
      · rw [if_pos hseen, if_pos hseen]
      · rw [if_neg hseen, if_neg hseen]
        cases hkeep : (binwaittScanner needle sz accumLen).keep baccum p.chunk with
        | none => rfl
        | some trunc => exact ih expire' trunc
    · rw [if_neg hgo, if_neg hgo]
      rfl

/-! ## Only the first cut can go below zero -/

/-- The text of the first `k` chunks. -/
def whole (bufs : List Bytes) (k : Nat) : Bytes := ((bufs.take k).map cstr).flatten

/-- With chunk `k` the text is over `TRIMEXPECT` for the first time. -/
def FirstOver (bufs : List Bytes) (k : Nat) : Prop :=
  (whole bufs k).length ≤ TRIMEXPECT ∧ TRIMEXPECT < (whole bufs (k + 1)).length

/-- No text before chunk `k` has ended the call. -/
def Unended (ends : Bytes → Bool) (bufs : List Bytes) (k : Nat) : Prop :=
  ∀ j < k, bufs[j]? ≠ some [] → ends (whole bufs (j + 1)) = false

section
variable {ends : Bytes → Bool} {n k : Nat} {cut : Bytes → Option Cut} {accum t c : Bytes}
  {bufs : List Bytes}

theorem whole_succ (h : bufs[k]? = some c) : whole bufs (k + 1) = whole bufs k ++ cstr c := by
  unfold whole
  rw [List.take_add_one, h]
  simp

theorem whole_le {j : Nat} (bufs : List Bytes) (h : j ≤ k) :
    (whole bufs j).length ≤ (whole bufs k).length := by
  obtain ⟨rest, hrest⟩ := (List.take_prefix_take_left (l := bufs) h).map cstr
  unfold whole
  rw [← hrest, List.flatten_append, List.length_append]
  exact Nat.le_add_right _ _

theorem trim_short (h : accum.length ≤ TRIMEXPECT) : trim n accum = some accum :=
  if_neg (Nat.not_lt_of_le h)

/-- What is kept is as long as what was subtracted. -/
theorem trim_length {trunc : Bytes} (h : trim n accum = some trunc)
    (hlong : TRIMEXPECT < accum.length ∨ n ≤ accum.length) : n ≤ trunc.length := by
  unfold trim at h
  split at h
  · split at h
    · obtain rfl := Option.some.inj h
      rw [List.length_drop]
      omega
    · cases h
  · obtain rfl := Option.some.inj h
    omega

/-- Nothing is cut before the text is over `TRIMEXPECT`. -/
theorem kept_short (accum : Bytes) (h : (accum ++ (bufs.map cstr).flatten).length ≤ TRIMEXPECT) :
    (textScanner ends n).kept accum bufs = some (accum ++ (bufs.map cstr).flatten) := by
  induction bufs generalizing accum with
  | nil => simp
  | cons c cs ih =>
    have htext : accum ++ ((c :: cs).map cstr).flatten =
        accum ++ cstr c ++ (cs.map cstr).flatten := by simp
    rw [htext] at h ⊢
    have hshort : (accum ++ cstr c).length ≤ TRIMEXPECT := by
      rw [List.length_append] at h
      exact Nat.le_trans (Nat.le_add_right _ _) h
    have hkeep : (textScanner ends n).keep accum c = some (accum ++ cstr c) := by
      simp only [textScanner, trim_short hshort]
      split
      · next hempty => rw [hempty, cstr_nil, List.append_nil]
      · rfl
    rw [Scanner.kept_cons, hkeep]
    exact ih _ h

/-- The accumulator is the whole text until the first cut; from then on it is no
shorter than what a cut subtracts. -/
def Holds (n : Nat) (accum text : Bytes) : Prop :=
  (text.length ≤ TRIMEXPECT → accum = text) ∧ (TRIMEXPECT < text.length → n ≤ accum.length)

theorem Holds.keep {text trunc : Bytes} (h : Holds n accum text)
    (hkeep : (textScanner ends n).keep accum c = some trunc) : Holds n trunc (text ++ cstr c) := by
  simp only [textScanner] at hkeep
  split at hkeep
  · next hempty =>
    rw [hempty, cstr_nil, List.append_nil, ← Option.some.inj hkeep]
    exact h
  · by_cases hshort : text.length ≤ TRIMEXPECT
    · rw [h.1 hshort] at hkeep
      refine ⟨fun hle => ?_, fun hlt => trim_length hkeep (.inl hlt)⟩
      rw [trim_short hle] at hkeep
      exact (Option.some.inj hkeep).symm
    · have hn : n ≤ accum.length := h.2 (Nat.lt_of_not_le hshort)
      refine ⟨fun hle => ?_, fun _ => trim_length hkeep (.inr ?_)⟩
      · rw [List.length_append] at hle
        exact absurd (Nat.le_trans (Nat.le_add_right _ _) hle) hshort
      · rw [List.length_append]
        exact Nat.le_trans hn (Nat.le_add_right _ _)

theorem kept_holds (h : (textScanner ends n).kept [] (bufs.take k) = some t) :
    Holds n t (whole bufs k) := by
  have hstep : ∀ (t : Bytes) (pre : List Bytes) (c u : Bytes), Holds n t (pre.map cstr).flatten →
      (textScanner ends n).keep t c = some u → Holds n u ((pre ++ [c]).map cstr).flatten := by
    intro t pre c u hi hkeep
    simpa using hi.keep hkeep
  simpa [whole] using
    Scanner.kept_keeps hstep [] ⟨fun _ => rfl, fun h => absurd h (by decide)⟩ h

/-- What the scan looks at while nothing has been cut. -/
theorem at_short (hshort : (whole bufs k).length ≤ TRIMEXPECT)
    (h : (textScanner ends n).At [] bufs k t c) :
    t = whole bufs k ∧ t ++ cstr c = whole bufs (k + 1) := by
  have ht : t = whole bufs k := (kept_holds h.1).1 hshort
  exact ⟨ht, by rw [whole_succ h.2, ht]⟩

theorem seenAt_short (hshort : (whole bufs k).length ≤ TRIMEXPECT) (hk : k < bufs.length) :
    (textScanner ends n).SeenAt [] bufs k ↔
      bufs[k]? ≠ some [] ∧ ends (whole bufs (k + 1)) = true := by
  have hat : (textScanner ends n).At [] bufs k (whole bufs k) bufs[k] :=
    ⟨kept_short [] hshort, List.getElem?_eq_getElem hk⟩
  rw [hat.seenAt_iff, ← (at_short hshort hat).2, hat.2]
  simp [textScanner]

/-- **All cuts of a call are inside** when its first one is. -/
theorem inside_iff (hover : ∀ text x, cut text = some x → TRIMEXPECT < text.length)
    (hlate : ∀ text x, cut text = some x → n ≤ text.length → x.Inside) (bufs : List Bytes) :
    (∀ x ∈ (textScanner ends n).trace (fetchCut cut) [] bufs, x.Inside) ↔
      ∀ k < bufs.length, FirstOver bufs k → Unended ends bufs k →
        ∀ x, cut (whole bufs (k + 1)) = some x → x.Inside := by
  constructor
  · intro hall k hk hfirst hbefore x hx
    have hget : bufs[k]? = some bufs[k] := List.getElem?_eq_getElem hk
    have hne : bufs[k] ≠ [] := by
      intro hempty
      have hsame := whole_succ hget
      rw [hempty, cstr_nil, List.append_nil] at hsame
      exact absurd (hsame ▸ hfirst.2) (Nat.not_lt_of_le hfirst.1)
    refine hall x (Scanner.mem_trace.mpr
      ⟨k, whole bufs k, bufs[k], ⟨⟨kept_short [] hfirst.1, hget⟩, fun j hj hs => ?_⟩, ?_⟩)
    · have hj' := (seenAt_short (Nat.le_trans (whole_le bufs hj.le) hfirst.1) (by omega)).mp hs
      rw [hbefore j hj hj'.1] at hj'
      exact Bool.false_ne_true hj'.2
    · rw [fetchCut, if_neg hne, ← whole_succ hget]
      exact hx
  · intro hfirst x hx
    obtain ⟨k, t, c, ⟨hat, hnone⟩, hcut⟩ := Scanner.mem_trace.mp hx
    unfold fetchCut at hcut
    split at hcut
    · cases hcut
    · by_cases hshort : (whole bufs k).length ≤ TRIMEXPECT
      · rw [(at_short hshort hat).2] at hcut
        refine hfirst k hat.lt ⟨hshort, hover _ _ hcut⟩ (fun j hj hne => ?_) x hcut
        by_contra hends
        exact hnone j hj ((seenAt_short (Nat.le_trans (whole_le bufs hj.le) hshort)
          (Nat.lt_trans hj hat.lt)).mpr ⟨hne, by simpa using hends⟩)
      · have hn : n ≤ t.length := (kept_holds hat.1).2 (Nat.lt_of_not_le hshort)
        refine hlate _ x hcut ?_
        rw [List.length_append]
        exact Nat.le_trans hn (Nat.le_add_right _ _)

end

/-! ## The three calls -/

/-- If the text goes over `TRIMEXPECT` without a match, the pattern is no longer
than the text then is. -/
def StrwaittFits (regex : Regex) (expr : CString) (bufs : List Bytes) : Prop :=
  ∀ k < bufs.length, FirstOver bufs k → Unended (strwaittEnds regex expr) bufs k →
    matchExpr regex expr (whole bufs (k + 1)) = some false →
    expr.bytes.length ≤ (whole bufs (k + 1)).length

/-- If the text goes over `TRIMEXPECT` before a token was found, the tokens looked
at then are together no longer than the text. -/
def StrstrFits (strings : List CString) (bufs : List Bytes) : Prop :=
  ∀ k < bufs.length, FirstOver bufs k → Unended (strstrEnds strings) bufs k →
    (scan strings (whole bufs (k + 1)) 0).1 ≤ (whole bufs (k + 1)).length

/-- The array is empty, or `_baccum` is not over `TRIMEXPECT` before the needle is
in it. An array that overruns `ptr` is not looked for. -/
def BinwaittFits (d : Dev) (a stack : Bytes) (live : List Poll) : Prop :=
  fits a = true → a ≠ [] → Short d.baccum (cstr (a ++ stack)) live

def CallFits (regex : Regex) (d : Dev) (start : Int) (polls : List Poll) : Call → Prop
  | .strwaitt expr to_ =>
    let (expire, infinite) := deadline start (to_.getD d.tout)
    StrwaittFits regex expr ((passed infinite expire polls).map Poll.chunk)
  | .strstr strings =>
    StrstrFits strings ((passed false (start + d.tout) polls).map Poll.chunk)
  | .binwaitt a stack to_ =>
    let (expire, infinite) := deadline start (to_.getD d.tout)
    BinwaittFits d a stack (passed infinite expire polls)
  | _ => True

theorem scan_le_total (strings : List CString) (text : Bytes) :
    (scan strings text 0).1 ≤ totalLength strings :=
  Nat.zero_add (totalLength strings) ▸ (scan_spec strings text 0).2.1

/-- Patterns and tokens of the length of a text that is cut always fit. -/
theorem strwaittFits_of_short {regex : Regex} {expr : CString}
    (h : expr.bytes.length ≤ TRIMEXPECT + 1) (bufs : List Bytes) : StrwaittFits regex expr bufs :=
  fun _ _ hfirst _ _ => Nat.le_trans h hfirst.2

theorem strstrFits_of_short {strings : List CString} (h : totalLength strings ≤ TRIMEXPECT + 1)
    (bufs : List Bytes) : StrstrFits strings bufs := fun _ _ hfirst _ =>
  Nat.le_trans (scan_le_total strings _) (Nat.le_trans h hfirst.2)

theorem strwaitt_inside_iff (regex : Regex) (expr : CString) (bufs : List Bytes) :
    (∀ x ∈ (textScanner (strwaittEnds regex expr) expr.bytes.length).trace
        (fetchCut (strwaittCut regex expr)) [] bufs, x.Inside) ↔
      StrwaittFits regex expr bufs := by
  have hcut : ∀ text x, strwaittCut regex expr text = some x →
      TRIMEXPECT < text.length ∧ x = ⟨text.length, expr.bytes.length, text.length⟩ := by
    intro text x hx
    unfold strwaittCut at hx
    split at hx
    · next h => exact ⟨h.2, (Option.some.inj hx).symm⟩
    · cases hx
  rw [inside_iff (fun text x hx => (hcut text x hx).1) fun text x hx hn =>
    (hcut text x hx).2 ▸ ⟨hn, Nat.sub_le _ _⟩]
  constructor
  · intro h k hk hfirst hbefore hmatch
    exact (h k hk hfirst hbefore _ (if_pos ⟨hmatch, hfirst.2⟩)).1
  · intro h k hk hfirst hbefore x hx
    have hmatch : matchExpr regex expr (whole bufs (k + 1)) = some false := by
      by_contra hno
      rw [strwaittCut, if_neg fun h => hno h.1] at hx
      cases hx
    rw [(hcut _ x hx).2]
    exact ⟨h k hk hfirst hbefore hmatch, Nat.sub_le _ _⟩

theorem strstr_inside_iff (strings : List CString) (bufs : List Bytes) :
    (∀ x ∈ (textScanner (strstrEnds strings) (totalLength strings)).trace
        (fetchCut (strstrCut strings)) [] bufs, x.Inside) ↔ StrstrFits strings bufs := by
  have hcut : ∀ text x, strstrCut strings text = some x →
      TRIMEXPECT < text.length ∧ x = ⟨text.length, (scan strings text 0).1, text.length⟩ := by
    intro text x hx
    unfold strstrCut at hx
    split at hx
    · next h => exact ⟨h, (Option.some.inj hx).symm⟩
    · cases hx
  rw [inside_iff (fun text x hx => (hcut text x hx).1) fun text x hx hn =>
    (hcut text x hx).2 ▸ ⟨Nat.le_trans (scan_le_total strings text) hn, Nat.sub_le _ _⟩]
  constructor
  · intro h k hk hfirst hbefore
    exact (h k hk hfirst hbefore _ (if_pos hfirst.2)).1
  · intro h k hk hfirst hbefore x hx
    rw [(hcut _ x hx).2]
    exact ⟨h k hk hfirst hbefore, Nat.sub_le _ _⟩

/-- No cut of `binwaitt` is inside unless the array is empty. -/
theorem binwaitt_inside_iff (needle : Bytes) (sz : Nat) (old : Bytes) (live : List Poll) :
    (∀ x ∈ (binwaittScanner needle sz 0).trace
        (fun baccum buf => binwaittCut needle sz 0 (baccum ++ buf)) old (live.map Poll.chunk),
        x.Inside) ↔
      (0 < sz → Short old needle live) := by
  have hcut : ∀ baccum x, binwaittCut needle sz 0 baccum = some x →
      ¬ (baccum ≠ [] ∧ needle <:+: baccum) ∧ TRIMEXPECT < baccum.length ∧
        x = ⟨0, sz, baccum.length⟩ := by
    intro baccum x hx
    unfold binwaittCut at hx
    split at hx
    · cases hx
    · next hno =>
      split at hx
      · next hlong => exact ⟨hno, hlong, (Option.some.inj hx).symm⟩
      · cases hx
  constructor
  · intro hall hsz
    have hends := (binwaittScanner needle sz 0).scan_ends old (live.map Poll.chunk)
    refine (binEnds old needle hsz live).short_iff.mpr fun k hlost => ?_
    rw [hlost] at hends
    cases hends with
    | lost _ t c hat hkeep hnone =>
      have hlong : TRIMEXPECT < (t ++ c).length := (binTrim_eq_none hsz).mp hkeep
      have hno : ¬ (t ++ c ≠ [] ∧ needle <:+: t ++ c) := fun hin =>
        hnone k le_rfl ⟨t, c, hat, decide_eq_true hin⟩
      have hx : binwaittCut needle sz 0 (t ++ c) = some ⟨0, sz, (t ++ c).length⟩ := by
        rw [binwaittCut, if_neg hno, if_pos hlong]
      have hinside := hall _ (Scanner.mem_trace.mpr
        ⟨k, t, c, ⟨hat, fun j hj => hnone j hj.le⟩, hx⟩)
      exact absurd hinside.1 (Nat.not_le_of_lt hsz)
  · intro hshort x hx
    obtain ⟨k, t, c, ⟨hat, hnone⟩, hx⟩ := Scanner.mem_trace.mp hx
    obtain ⟨hno, hlong, rfl⟩ := hcut _ x hx
    rcases Nat.eq_zero_or_pos sz with rfl | hsz
    · exact ⟨le_rfl, Nat.zero_le _⟩
    · have hk : k < live.length := by simpa using hat.lt
      rw [at_whole hsz hat] at hno hlong
      refine absurd (hshort hsz k hk fun j hj hhit => ?_) (Nat.not_le_of_lt hlong)
      rcases Nat.lt_or_eq_of_le hj with hlt | rfl
      · obtain ⟨t', c', hat'⟩ := Scanner.at_of_kept hat.1 hlt (by rw [List.length_map]; omega)
        exact hnone j hlt ((seenAt_hit hsz hat').mpr hhit)
      · exact hno hhit

/-- **When no trim of a call goes below zero**, on an object with any past. For
`strstr` the clock must not run backwards, which ends the call at its first token. -/
theorem cuts_inside_iff (regex : Regex) (d : Dev) (start : Int) (polls : List Poll) (c : Call)
    (hclock : ∀ strings, c = .strstr strings → Clock start polls) :
    (∀ x ∈ callCuts regex d start polls c, x.Inside) ↔ CallFits regex d start polls c := by
  cases c with
  | strwaitt expr to_ =>
    unfold callCuts startCall CallFits
    simp only [strwaittCuts_eq]
    exact strwaitt_inside_iff regex expr _
  | strstr strings =>
    unfold callCuts startCall CallFits
    simp only [strstrCuts_eq strings (hclock strings rfl)]
    exact strstr_inside_iff strings _
  | binwaitt a stack to_ =>
    unfold callCuts startCall CallFits BinwaittFits
    by_cases hfits : fits a = true
    · simp only [hfits, if_true, binwaittCuts_eq, List.length_nil, true_imp_iff]
      rw [binwaitt_inside_iff, List.length_pos_iff]
    · simp [hfits]
  | writeArray a =>
    by_cases hfits : fits a = true <;> simp [callCuts, startCall, CallFits, hfits]
  | writereadArray a to_ =>
    by_cases hfits : fits a = true <;> simp [callCuts, startCall, CallFits, hfits]
  | settimeout to_ =>
    by_cases hpc : d.pc = none <;> simp [callCuts, startCall, CallFits, hpc]
  | close =>
    by_cases hpc : d.pc = none <;> simp [callCuts, startCall, CallFits, hpc]
  | _ => simp [callCuts, startCall, CallFits]

/-- One poll finds more than `TRIMEXPECT` zero bytes. -/
def zeros : List Poll := [⟨⟨0, 0, 0⟩, true, List.replicate (TRIMEXPECT + 1) 0⟩]

/-- The call that waits for the byte `A` computes `0 - 1`. -/
theorem count_below_zero :
    ¬ ∀ x ∈ callCuts (fun _ => none) (Dev.init none) 0 zeros (.binwaitt [0x41] [0] (some 2000)),
      x.Inside := by
  have hno : ¬ [0x41] <:+: List.replicate (TRIMEXPECT + 1) (0 : Byte) := by
    intro hin
    have hmem : (0x41 : Byte) ∈ List.replicate (TRIMEXPECT + 1) 0 := hin.subset (by simp)
    exact absurd (List.eq_of_mem_replicate hmem) (by decide)
  intro hall
  have hcut : ⟨0, 1, TRIMEXPECT + 1⟩ ∈
      callCuts (fun _ => none) (Dev.init none) 0 zeros (.binwaitt [0x41] [0] (some 2000)) := by
    have hcall : callCuts (fun _ => none) (Dev.init none) 0 zeros
        (.binwaitt [0x41] [0] (some 2000)) = binwaittCuts [0x41] 1 0 false 2000 [] zeros := rfl
    have hone : binwaittCut [0x41] 1 0 ([] ++ List.replicate (TRIMEXPECT + 1) 0) =
        some ⟨0, 1, TRIMEXPECT + 1⟩ := by
      rw [List.nil_append, binwaittCut, if_neg fun h => hno h.2, List.length_replicate,
        if_pos (Nat.lt_succ_self _)]
    have hgo : (Turn.mk 0 0 0).go true 2000 = true := rfl
    rw [hcall, zeros, binwaittCuts, if_pos hgo]
    simp only [hone]
    exact List.mem_append_left _ (List.mem_singleton.mpr rfl)
  exact absurd (hall _ hcut).1 (by decide)

/-- A first poll that finds more than `TRIMEXPECT` bytes is cut. -/
theorem strstrCuts_ne_nil {strings : List CString} {expire : Int} {accum : Bytes} {p : Poll}
    {ps : List Poll} (hgo : p.go p.alive expire = true) (hne : p.chunk ≠ [])
    (hlong : (accum ++ cstr p.chunk).length > TRIMEXPECT) :
    strstrCuts strings expire accum (p :: ps) ≠ [] := by
  rw [strstrCuts, if_pos hgo, if_neg hne, strstrCut, if_pos hlong]
  exact List.cons_ne_nil _ _

/-- The call that waits for `login` makes a cut, and every cut it makes is inside. -/
theorem cuts_inside_iff_bootPolls :
    callCuts (fun _ => none) (Dev.init none) 0 bootPolls (.strstr [login]) ≠ [] ∧
      ∀ x ∈ callCuts (fun _ => none) (Dev.init none) 0 bootPolls (.strstr [login]), x.Inside := by
  refine ⟨?_, (cuts_inside_iff (fun _ => none) (Dev.init none) 0 bootPolls (.strstr [login])
    fun _ _ => by simp [bootPolls, Clock]).mpr (strstrFits_of_short (by decide) _)⟩
  have hcall : callCuts (fun _ => none) (Dev.init none) 0 bootPolls (.strstr [login]) =
      strstrCuts [login] 2000 [] bootPolls := rfl
  rw [hcall, bootPolls]
  refine strstrCuts_ne_nil rfl (by simp) ?_
  rw [List.nil_append, cstr_eq_self (by simp), List.length_replicate]
  exact Nat.lt_succ_self TRIMEXPECT

end Autocom.Trims
