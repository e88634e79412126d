import Autocom.ExpectWindow

/-! # What the cutting of a stream into chunks can change

A script that expects several texts one after the other, run twice on the same
stream cut in two ways. Each call starts with an empty accumulator and drains
whole buffers, so what follows a match in its buffer is not seen by the next
call. -/
namespace Autocom.ExpectCutting
open Autocom.Expect Autocom.ExpectWindow

/-- One call of `strwaitt`, or of `strwait` with `to_` the device's `_tout`. -/
structure Call where
  expr : CString
  to_ : Int
  start : Int
  polls : List Poll

def Call.result (regex : Regex) (c : Call) : Result Int :=
  strwaitt regex c.expr c.to_ c.start c.polls

def codes (regex : Regex) (calls : List Call) : List (Outcome Int) :=
  calls.map fun c => (c.result regex).out

/-- The polls of the calls find the chunks `cuts`, in order. Every call returns,
and one that gives up has found all that was left: the stream arrives before
its deadline. -/
def Feeds (regex : Regex) : List Bytes → List Call → Prop
  | _, [] => True
  | cuts, c :: calls => ∃ rest, cuts = (c.result regex).drained ++ rest ∧
      (c.result regex).out ≠ .waiting ∧ ((c.result regex).out = .ret 1 → rest = []) ∧
      Feeds regex rest calls

/-- A run of the calls for the patterns `ps` on the stream `s` cut into `cuts`. -/
structure Runs (regex : Regex) (s : Bytes) (ps : List CString) (cuts : List Bytes)
    (calls : List Call) : Prop where
  cut : cuts.flatten = s
  nonempty : ∀ c ∈ cuts, c ≠ []
  exprs : calls.map Call.expr = ps
  quiet : ∀ c ∈ calls, Quiet c.polls
  feeds : Feeds regex cuts calls

/-! ## One call of a run -/

theorem call_ends (regex : Regex) {c : Call} (hp : Plain c.expr) (hq : Quiet c.polls) :
    EndsRight c.expr [] (c.result regex) :=
  strwaitt_plain hp c.to_ c.start hq.text

/-- The first call returns 0 exactly when its pattern occurs in what is left. -/
theorem head_found_iff {regex : Regex} {c : Call} {cuts rest : List Bytes} (hp : Plain c.expr)
    (hq : Quiet c.polls) (hcuts : cuts = (c.result regex).drained ++ rest)
    (hlate : (c.result regex).out = .ret 1 → rest = [])
    (hret : (c.result regex).out ≠ .waiting) :
    (c.result regex).out = .ret 0 ↔ c.expr.bytes <:+: cuts.flatten := by
  have hends := call_ends regex hp hq
  constructor
  · intro h0
    have hin := (hends.found h0).1
    rw [hcuts, List.flatten_append]
    exact List.infix_append_of_infix_left (by simpa using hin)
  · intro hin
    by_contra h0
    have h1 : (c.result regex).out = .ret 1 := by
      rcases hends.code with h | h | h
      · exact absurd h h0
      · exact h
      · exact absurd h hret
    have hmiss := hends.missed h0
    rw [hcuts, hlate h1, List.append_nil] at hin
    exact hmiss (by simpa using hin)

theorem not_found {regex : Regex} {c : Call} (hp : Plain c.expr) (hq : Quiet c.polls)
    (hret : (c.result regex).out ≠ .waiting) (h : (c.result regex).out ≠ .ret 0) :
    (c.result regex).out = .ret 1 := by
  rcases (call_ends regex hp hq).code with h0 | h1 | hw
  · exact absurd h0 h
  · exact h1
  · exact absurd hw hret

/-- A match drains something. -/
theorem drained_ne_nil {regex : Regex} {c : Call} (hp : Plain c.expr) (hq : Quiet c.polls)
    (h : (c.result regex).out = .ret 0) : (c.result regex).drained ≠ [] := by
  intro hnil
  have hin := ((call_ends regex hp hq).found h).1
  rw [hnil] at hin
  exact hp.nonempty (List.infix_nil.mp (by simpa using hin))

/-- With nothing left to find every call gives up. -/
theorem codes_of_nothing {regex : Regex} (calls : List Call)
    (hp : ∀ c ∈ calls, Plain c.expr) (hq : ∀ c ∈ calls, Quiet c.polls)
    (h : Feeds regex [] calls) : codes regex calls = calls.map fun _ => .ret 1 := by
  induction calls with
  | nil => rfl
  | cons c calls ih =>
    obtain ⟨rest, hcuts, hret, hlate, hrest⟩ := h
    obtain ⟨-, rfl⟩ := List.append_eq_nil_iff.mp hcuts.symm
    have hpc := hp c (by simp)
    have hqc := hq c (by simp)
    have hne : (c.result regex).out ≠ .ret 0 := by
      rw [Ne, head_found_iff hpc hqc hcuts hlate hret]
      exact fun hin => hpc.nonempty (List.infix_nil.mp hin)
    simp only [codes, List.map_cons, not_found hpc hqc hret hne]
    exact congrArg _ (ih (fun d hd => hp d (by simp [hd])) (fun d hd => hq d (by simp [hd])) hrest)

/-! ## The codes of a run -/

/-- The codes when at most the first pattern can be found. -/
def firstOnly (s : Bytes) : List CString → List (Outcome Int)
  | [] => []
  | p :: ps => (if p.bytes <:+: s then .ret 0 else .ret 1) :: ps.map fun _ => .ret 1

/-- Two consecutive patterns that a cutting can separate. -/
def Splits (s : Bytes) (ps : List CString) : Prop :=
  ∃ p₁ p₂ rest a b, ps = p₁ :: p₂ :: rest ∧ s = a ++ b ∧ p₁.bytes <:+: a ∧ p₂.bytes <:+: b

theorem head_code {regex : Regex} {s : Bytes} {ps : List CString} {cuts : List Bytes}
    {calls : List Call} (hp : ∀ p ∈ ps, Plain p) (h : Runs regex s ps cuts calls) :
    (codes regex calls).head? = (firstOnly s ps).head? := by
  obtain ⟨rfl, -, rfl, hq, hfeeds⟩ := h
  cases calls with
  | nil => rfl
  | cons c calls =>
    obtain ⟨rest, hcuts, hret, hlate, -⟩ := hfeeds
    have hpc : Plain c.expr := hp _ (by simp)
    have hqc := hq c (by simp)
    have hiff := head_found_iff hpc hqc hcuts hlate hret
    simp only [codes, List.map_cons, List.head?_cons, firstOnly]
    by_cases hin : c.expr.bytes <:+: cuts.flatten
    · rw [if_pos hin, hiff.mpr hin]
    · rw [if_neg hin, not_found hpc hqc hret (fun h => hin (hiff.mp h))]

theorem codes_of_no_split {regex : Regex} {s : Bytes} {ps : List CString} {cuts : List Bytes}
    {calls : List Call} (hp : ∀ p ∈ ps, Plain p) (hno : ¬ Splits s ps)
    (h : Runs regex s ps cuts calls) : codes regex calls = firstOnly s ps := by
  have hhead := head_code hp h
  obtain ⟨rfl, -, rfl, hq, hfeeds⟩ := h
  cases calls with
  | nil => rfl
  | cons c calls =>
    obtain ⟨rest, hcuts, hret, hlate, hrest⟩ := hfeeds
    have hpc : ∀ d ∈ calls, Plain d.expr := fun d hd => hp _ (by simp; exact .inr ⟨d, hd, rfl⟩)
    have hqc : ∀ d ∈ calls, Quiet d.polls := fun d hd => hq d (by simp [hd])
    simp only [codes, List.map_cons, List.head?_cons, firstOnly, Option.some.injEq] at hhead ⊢
    rw [hhead]
    have htail : codes regex calls = calls.map fun _ => .ret 1 := by
      by_cases hfound : (c.result regex).out = .ret 0
      · -- after a match, the second call sees only what a split puts behind it
        cases calls with
        | nil => rfl
        | cons d calls =>
          obtain ⟨rest', hcuts', hret', hlate', hrest'⟩ := hrest
          have hpd := hpc d (by simp)
          have hqd := hqc d (by simp)
          have hnot : (d.result regex).out ≠ .ret 0 := by
            rw [Ne, head_found_iff hpd hqd hcuts' hlate' hret']
            intro hin
            have hfront := ((call_ends regex (hp _ (by simp)) (hq c (by simp))).found
              hfound).1
            exact hno ⟨c.expr, d.expr, calls.map Call.expr, (c.result regex).drained.flatten,
              rest.flatten, rfl, by rw [hcuts, List.flatten_append], by simpa using hfront, hin⟩
          have h1 := not_found hpd hqd hret' hnot
          obtain rfl := hlate' h1
          simp only [codes, List.map_cons, h1]
          exact congrArg _ (codes_of_nothing _ (fun e he => hpc e (by simp [he]))
            (fun e he => hqc e (by simp [he])) hrest')
      · have h1 := not_found (hp _ (by simp)) (hq c (by simp)) hret hfound
        obtain rfl := hlate h1
        exact codes_of_nothing _ hpc hqc hrest
    rw [List.map_map]
    exact congrArg _ htail

/-! ## Every cutting has a run -/

/-- One poll for each chunk that is left, and one after the deadline. -/
def pollsOf (cuts : List Bytes) : List Poll :=
  cuts.map (fun c => ⟨⟨0, 0, 0⟩, true, c⟩) ++ [⟨⟨1, 0, 1⟩, true, []⟩]

def feedCall (p : CString) (cuts : List Bytes) : Call := ⟨p, 1, 0, pollsOf cuts⟩

def feed (regex : Regex) : List CString → List Bytes → List Call
  | [], _ => []
  | p :: ps, cuts =>
    feedCall p cuts ::
      feed regex ps (cuts.drop ((feedCall p cuts).result regex).drained.length)

theorem quiet_pollsOf {cuts : List Bytes} (h0 : 0 ∉ cuts.flatten) : Quiet (pollsOf cuts) := by
  refine ⟨fun p hp => ?_, fun p hp => ?_, fun p hp => ?_⟩
  all_goals
    rcases List.mem_append.mp hp with hp | hp
    · obtain ⟨c, hc, rfl⟩ := List.mem_map.mp hp
      first
        | exact fun hz => h0 (List.mem_flatten.mpr ⟨c, hc, hz⟩)
        | rfl
    · obtain rfl := List.mem_singleton.mp hp
      first
        | exact List.not_mem_nil
        | rfl

/-- The loop drains the chunks from the front, and all of them if it gives up. -/
theorem strwaittLoop_pollsOf (regex : Regex) (expr : CString) (accum : Bytes)
    {cuts : List Bytes} (hne : ∀ c ∈ cuts, c ≠ []) :
    ∃ rest, cuts = (strwaittLoop regex expr false 1 accum (pollsOf cuts)).drained ++ rest ∧
      (strwaittLoop regex expr false 1 accum (pollsOf cuts)).out ≠ .waiting ∧
      ((strwaittLoop regex expr false 1 accum (pollsOf cuts)).out = .ret 1 → rest = []) := by
  induction cuts generalizing accum with
  | nil =>
    refine ⟨[], rfl, ?_, fun _ => rfl⟩
    intro h; cases h
  | cons c cuts ih =>
    have hc : c ≠ [] := hne c (by simp)
    have hloop : strwaittLoop regex expr false 1 accum (pollsOf (c :: cuts)) =
        afterFetch regex expr false 1 accum c (pollsOf cuts) := strwaittLoop_fetch _ rfl hc
    rw [hloop]
    unfold afterFetch
    cases strwaittBody regex expr accum c with
    | found a =>
      refine ⟨cuts, rfl, ?_, ?_⟩
      · intro h; cases h
      · intro h; cases h
    | thrown =>
      refine ⟨cuts, rfl, ?_, ?_⟩
      · intro h; cases h
      · intro h; cases h
    | more a =>
      obtain ⟨rest, hcuts, hret, hlate⟩ := ih a fun d hd => hne d (by simp [hd])
      exact ⟨rest, by simpa using hcuts, hret, hlate⟩

theorem feed_feeds (regex : Regex) (ps : List CString) {cuts : List Bytes}
    (hne : ∀ c ∈ cuts, c ≠ []) : Feeds regex cuts (feed regex ps cuts) := by
  induction ps generalizing cuts with
  | nil => trivial
  | cons p ps ih =>
    obtain ⟨rest, hcuts, hret, hlate⟩ := strwaittLoop_pollsOf regex p [] hne
    have hdrop : cuts.drop ((feedCall p cuts).result regex).drained.length = rest :=
      (congrArg (List.drop _) hcuts).trans List.drop_left
    refine ⟨rest, hcuts, hret, hlate, ?_⟩
    rw [← hdrop]
    exact ih fun c hc => hne c (List.mem_of_mem_drop hc)

theorem feed_runs (regex : Regex) {s : Bytes} (h0 : 0 ∉ s) (ps : List CString)
    (cuts : List Bytes) (hcut : cuts.flatten = s) (hne : ∀ c ∈ cuts, c ≠ []) :
    Runs regex s ps cuts (feed regex ps cuts) := by
  subst hcut
  refine ⟨rfl, hne, ?_, ?_, feed_feeds regex ps hne⟩
  · clear h0 hne
    induction ps generalizing cuts with
    | nil => rfl
    | cons p ps ih => exact congrArg (p :: ·) (ih _)
  · clear hne
    induction ps generalizing cuts with
    | nil => nofun
    | cons p ps ih =>
      intro c hc
      rcases List.mem_cons.mp hc with rfl | hc
      · exact quiet_pollsOf h0
      · refine ih _ (fun hz => h0 ?_) c hc
        obtain ⟨d, hd, hzd⟩ := List.mem_flatten.mp hz
        exact List.mem_flatten.mpr ⟨d, List.mem_of_mem_drop hd, hzd⟩

/-! ## When the cutting shows -/

/-- One chunk: the second call finds nothing. -/
theorem codes_uncut {regex : Regex} {s : Bytes} {p₁ p₂ : CString} {ps : List CString}
    {calls : List Call} (hp : ∀ p ∈ p₁ :: p₂ :: ps, Plain p) (hin : p₁.bytes <:+: s)
    (h : Runs regex s (p₁ :: p₂ :: ps) [s] calls) :
    (codes regex calls)[1]? = some (.ret 1) := by
  obtain ⟨-, -, hexprs, hq, hfeeds⟩ := h
  match calls, hexprs, hq, hfeeds with
  | c :: d :: calls, hexprs, hq, ⟨rest, hcuts, hret, hlate, hrest⟩ =>
    obtain ⟨rfl, rfl, -⟩ : c.expr = p₁ ∧ d.expr = p₂ ∧ calls.map Call.expr = ps := by
      simpa using hexprs
    have hpc : Plain c.expr := hp _ (by simp)
    have hqc := hq c (by simp)
    have hfound := (head_found_iff hpc hqc hcuts hlate hret).mpr (by simpa using hin)
    obtain rfl : rest = [] := by
      obtain ⟨b, t, hbt⟩ := List.exists_cons_of_ne_nil (drained_ne_nil hpc hqc hfound)
      rw [hbt] at hcuts
      simp only [List.cons_append, List.cons.injEq] at hcuts
      exact (List.append_eq_nil_iff.mp hcuts.2.symm).2
    have hnone := codes_of_nothing (d :: calls)
      (fun e he => by
        rcases List.mem_cons.mp he with rfl | he
        · exact hp _ (by simp)
        · obtain ⟨-, -, hps⟩ : c.expr = c.expr ∧ e = e ∧ calls.map Call.expr = ps := by
            simpa using hexprs
          exact hp _ (by rw [← hps]; simp; exact .inr (.inr ⟨e, he, rfl⟩)))
      (fun e he => hq e (List.mem_cons_of_mem _ he)) hrest
    simp only [codes, List.map_cons] at hnone ⊢
    simp [List.head_eq_of_cons_eq hnone]

/-- Two chunks, the first pattern in the front one: the second call looks in
the other. -/
theorem codes_cut {regex : Regex} {a b : Bytes} {p₁ p₂ : CString} {ps : List CString}
    {calls : List Call} (hp : ∀ p ∈ p₁ :: p₂ :: ps, Plain p) (ha : p₁.bytes <:+: a)
    (hb : p₂.bytes <:+: b) (h : Runs regex (a ++ b) (p₁ :: p₂ :: ps) [a, b] calls) :
    (codes regex calls)[1]? = some (.ret 0) := by
  obtain ⟨-, -, hexprs, hq, hfeeds⟩ := h
  match calls, hexprs, hq, hfeeds with
  | c :: d :: calls, hexprs, hq,
      ⟨rest, hcuts, hret, hlate, rest', hcuts', hret', hlate', _⟩ =>
    obtain ⟨rfl, rfl, -⟩ : c.expr = p₁ ∧ d.expr = p₂ ∧ calls.map Call.expr = ps := by
      simpa using hexprs
    have hpc : Plain c.expr := hp _ (by simp)
    have hqc := hq c (by simp)
    have hfound := (head_found_iff hpc hqc hcuts hlate hret).mpr
      (by simpa using List.infix_append_of_infix_left ha)
    obtain ⟨-, hfirst⟩ := (call_ends regex hpc hqc).found hfound
    -- the first call cannot have drained both chunks: the front one was enough
    obtain rfl : rest = [b] := by
      match hd : (c.result regex).drained, drained_ne_nil hpc hqc hfound with
      | [x], _ => rw [hd] at hcuts; simp_all
      | x :: y :: t, _ =>
        rw [hd] at hcuts hfirst
        simp only [List.cons_append, List.cons.injEq] at hcuts
        obtain ⟨rfl, rfl, hnil⟩ := hcuts
        obtain ⟨rfl, -⟩ := List.append_eq_nil_iff.mp hnil.symm
        exact absurd ha (by simpa using hfirst)
    have hsecond := (head_found_iff (hp _ (by simp)) (hq d (by simp)) hcuts' hlate' hret').mpr
      (by simpa using hb)
    simp [codes, hsecond]

/-- **What the cutting can change.** The first code is the same for every
cutting. All codes are the same for every two cuttings exactly when no split of
the stream has the first pattern in front and the second behind. -/
theorem codes_of_cuttings (regex : Regex) (s : Bytes) (h0 : 0 ∉ s) (ps : List CString)
    (hp : ∀ p ∈ ps, Plain p) :
    (∀ cuts₁ cuts₂ calls₁ calls₂, Runs regex s ps cuts₁ calls₁ → Runs regex s ps cuts₂ calls₂ →
      (codes regex calls₁).head? = (codes regex calls₂).head?) ∧
    ((∀ cuts₁ cuts₂ calls₁ calls₂, Runs regex s ps cuts₁ calls₁ →
        Runs regex s ps cuts₂ calls₂ → codes regex calls₁ = codes regex calls₂) ↔
      ¬ ∃ p₁ p₂ rest a b, ps = p₁ :: p₂ :: rest ∧ s = a ++ b ∧
        p₁.bytes <:+: a ∧ p₂.bytes <:+: b) := by
  refine ⟨fun _ _ _ _ h₁ h₂ => (head_code hp h₁).trans (head_code hp h₂).symm, ?_, ?_⟩
  · rintro hsame ⟨p₁, p₂, rest, a, b, rfl, rfl, ha, hb⟩
    have hna : a ≠ [] := ha.ne_nil (hp p₁ (by simp)).nonempty
    have hnb : b ≠ [] := hb.ne_nil (hp p₂ (by simp)).nonempty
    have hone := feed_runs regex h0 (p₁ :: p₂ :: rest) [a ++ b] (by simp) (by simp [hna])
    have htwo := feed_runs regex h0 (p₁ :: p₂ :: rest) [a, b] (by simp) (by simp [hna, hnb])
    have h1 := codes_uncut hp (List.infix_append_of_infix_left ha) hone
    rw [hsame _ _ _ _ hone htwo, codes_cut hp ha hb htwo] at h1
    cases h1
  · intro hno _ _ _ _ h₁ h₂
    exact (codes_of_no_split hp hno h₁).trans (codes_of_no_split hp hno h₂).symm

def charA : CString := ⟨[0x61], by decide⟩
def charB : CString := ⟨[0x62], by decide⟩

/-- The stream `ab` and the patterns `a`, `b`: in one chunk the second call
finds nothing, in two chunks it finds its text. -/
theorem cutting_shows :
    ∃ calls₁ calls₂, Runs (fun _ => none) [0x61, 0x62] [charA, charB] [[0x61, 0x62]] calls₁ ∧
      Runs (fun _ => none) [0x61, 0x62] [charA, charB] [[0x61], [0x62]] calls₂ ∧
      codes (fun _ => none) calls₁ = [.ret 0, .ret 1] ∧
      codes (fun _ => none) calls₂ = [.ret 0, .ret 0] :=
  ⟨_, _, feed_runs _ (by decide) _ _ rfl (by decide), feed_runs _ (by decide) _ _ rfl (by decide),
    by decide, by decide⟩

theorem codes_of_cuttings_ab :
    (∀ cuts₁ cuts₂ calls₁ calls₂,
      Runs (fun _ => none) [0x61, 0x62] [charA, charB] cuts₁ calls₁ →
      Runs (fun _ => none) [0x61, 0x62] [charA, charB] cuts₂ calls₂ →
      (codes (fun _ => none) calls₁).head? = (codes (fun _ => none) calls₂).head?) ∧
    ((∀ cuts₁ cuts₂ calls₁ calls₂,
        Runs (fun _ => none) [0x61, 0x62] [charA, charB] cuts₁ calls₁ →
        Runs (fun _ => none) [0x61, 0x62] [charA, charB] cuts₂ calls₂ →
        codes (fun _ => none) calls₁ = codes (fun _ => none) calls₂) ↔
      ¬ ∃ p₁ p₂ rest a b, [charA, charB] = p₁ :: p₂ :: rest ∧ ([0x61, 0x62] : Bytes) = a ++ b ∧
        p₁.bytes <:+: a ∧ p₂.bytes <:+: b) :=
  codes_of_cuttings (fun _ => none) [0x61, 0x62] (by decide) [charA, charB] (by
    intro p hp
    simp only [List.mem_cons, List.not_mem_nil, or_false] at hp
    rcases hp with rfl | rfl <;> exact ⟨by decide, by decide, by decide⟩)

end Autocom.ExpectCutting
