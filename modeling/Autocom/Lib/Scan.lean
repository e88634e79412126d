import Mathlib.Data.List.Basic
import Mathlib.Data.Option.Basic

/-! # Scanning a sequence with a state that forgets

A scanner reads elements one after the other until it sees what it looks for. It
carries a state that may keep less than it has read, and keeping may fail. The
rules below say at which element a scan ends, and when a scan is right about a
property of the positions that it cannot check itself. -/
namespace Autocom.Lib.Scan

variable {σ α β : Type*}

structure Scanner (σ α : Type*) where
  seen : σ → α → Bool
  keep : σ → α → Option σ

/-- A scan ends at an element it has seen or could not keep, or goes through. -/
inductive Fate (σ : Type*)
  | found (k : Nat)
  | lost (k : Nat)
  | through (s : σ)

/-- One more element in front. -/
def Fate.next : Fate σ → Fate σ
  | .found k => .found (k + 1)
  | .lost k => .lost (k + 1)
  | .through s => .through s

namespace Scanner

def scan (M : Scanner σ α) : σ → List α → Fate σ
  | s, [] => .through s
  | s, c :: cs =>
    if M.seen s c then .found 0
    else match M.keep s c with
      | none => .lost 0
      | some t => (M.scan t cs).next

/-- The state after the elements, whether or not one of them was seen. -/
def kept (M : Scanner σ α) : σ → List α → Option σ
  | s, [] => some s
  | s, c :: cs => (M.keep s c).bind fun t => M.kept t cs

/-- In state `t` the scan would look at `c` as element `k`. -/
def At (M : Scanner σ α) (s : σ) (cs : List α) (k : Nat) (t : σ) (c : α) : Prop :=
  M.kept s (cs.take k) = some t ∧ cs[k]? = some c

def SeenAt (M : Scanner σ α) (s : σ) (cs : List α) (k : Nat) : Prop :=
  ∃ t c, M.At s cs k t c ∧ M.seen t c = true

/-- The scan looks at element `k` in state `t`. -/
def Reaches (M : Scanner σ α) (s : σ) (cs : List α) (k : Nat) (t : σ) (c : α) : Prop :=
  M.At s cs k t c ∧ ∀ j < k, ¬ M.SeenAt s cs j

/-- What `f` notes down on the way, at each element the scan looks at. -/
def trace (M : Scanner σ α) (f : σ → α → Option β) : σ → List α → List β
  | _, [] => []
  | s, c :: cs =>
    (f s c).toList ++
      if M.seen s c then []
      else match M.keep s c with
        | none => []
        | some t => M.trace f t cs

section
variable {M : Scanner σ α} {s t : σ} {c d : α} {cs : List α} {k : Nat}

@[simp] theorem kept_nil : M.kept s [] = some s := rfl

theorem kept_cons : M.kept s (c :: cs) = (M.keep s c).bind fun t => M.kept t cs := rfl

theorem kept_append {cs' : List α} :
    M.kept s (cs ++ cs') = (M.kept s cs).bind fun t => M.kept t cs' := by
  induction cs generalizing s with
  | nil => rfl
  | cons c cs ih =>
    rw [List.cons_append, kept_cons, kept_cons, Option.bind_assoc]
    exact congrArg _ (funext fun t => ih)

/-- **The invariant rule.** `I` relates the state to what has been read. -/
theorem kept_keeps {I : σ → List α → Prop}
    (hstep : ∀ t pre c u, I t pre → M.keep t c = some u → I u (pre ++ [c])) (pre : List α)
    (hi : I s pre) (h : M.kept s cs = some t) : I t (pre ++ cs) := by
  induction cs generalizing s pre with
  | nil =>
    obtain rfl := Option.some.inj h
    simpa using hi
  | cons c cs ih =>
    obtain ⟨m, hm, h⟩ := Option.bind_eq_some_iff.mp h
    simpa using ih _ (hstep s pre c m hi hm) h

theorem at_zero : M.At s (c :: cs) 0 t d ↔ s = t ∧ c = d := by
  simp [At]

theorem at_succ : M.At s (c :: cs) (k + 1) t d ↔ ∃ m, M.keep s c = some m ∧ M.At m cs k t d := by
  simp only [At, List.take_succ_cons, kept_cons, Option.bind_eq_some_iff,
    List.getElem?_cons_succ, exists_and_right, ← and_assoc]

theorem seenAt_nil : ¬ M.SeenAt s [] k := by
  rintro ⟨t, c, ⟨-, hc⟩, -⟩
  simp at hc

theorem seenAt_zero : M.SeenAt s (c :: cs) 0 ↔ M.seen s c = true := by
  constructor
  · rintro ⟨t, d, hat, hseen⟩
    obtain ⟨rfl, rfl⟩ := at_zero.mp hat
    exact hseen
  · exact fun h => ⟨s, c, at_zero.mpr ⟨rfl, rfl⟩, h⟩

theorem seenAt_succ :
    M.SeenAt s (c :: cs) (k + 1) ↔ ∃ m, M.keep s c = some m ∧ M.SeenAt m cs k := by
  constructor
  · rintro ⟨t, d, hat, hseen⟩
    obtain ⟨m, hm, hat⟩ := at_succ.mp hat
    exact ⟨m, hm, t, d, hat, hseen⟩
  · rintro ⟨m, hm, t, d, hat, hseen⟩
    exact ⟨t, d, at_succ.mpr ⟨m, hm, hat⟩, hseen⟩

theorem SeenAt.lt (h : M.SeenAt s cs k) : k < cs.length := by
  obtain ⟨t, c, hat, -⟩ := h
  exact (List.getElem?_eq_some_iff.mp hat.2).1

theorem At.lt (h : M.At s cs k t c) : k < cs.length := (List.getElem?_eq_some_iff.mp h.2).1

/-- There is one state and one element to look at. -/
theorem At.seenAt_iff (h : M.At s cs k t c) : M.SeenAt s cs k ↔ M.seen t c = true := by
  constructor
  · intro ⟨u, d, ⟨hkept, hd⟩, hseen⟩
    obtain rfl := Option.some.inj (h.1.symm.trans hkept)
    obtain rfl := Option.some.inj (h.2.symm.trans hd)
    exact hseen
  · exact fun hseen => ⟨t, c, h, hseen⟩

/-- A scan that keeps up to `m` could look at each element before. -/
theorem at_of_kept {m : Nat} {u : σ} (hkept : M.kept s (cs.take m) = some u) (hlt : k < m)
    (hlen : k < cs.length) : ∃ t c, M.At s cs k t c := by
  have hsplit : cs.take m = cs.take k ++ (cs.take m).drop k := by
    conv =>
      lhs
      rw [← List.take_append_drop k (cs.take m), List.take_take,
        Nat.min_eq_left (Nat.le_of_lt hlt)]
  rw [hsplit, kept_append] at hkept
  obtain ⟨t, ht, -⟩ := Option.bind_eq_some_iff.mp hkept
  exact ⟨t, cs[k], ht, List.getElem?_eq_getElem hlen⟩

/-- What was kept up to a later element was kept at `k`. -/
theorem At.keep_isSome {m : Nat} {u : σ} (hat : M.At s cs k t c)
    (hkept : M.kept s (cs.take m) = some u) (hlt : k < m) : (M.keep t c).isSome := by
  induction cs generalizing s k m with
  | nil => simp [At] at hat
  | cons b cs ih =>
    obtain ⟨m, rfl⟩ : ∃ m', m = m' + 1 := ⟨m - 1, by omega⟩
    rw [List.take_succ_cons, kept_cons] at hkept
    obtain ⟨a, ha, hkept⟩ := Option.bind_eq_some_iff.mp hkept
    cases k with
    | zero =>
      obtain ⟨rfl, rfl⟩ := at_zero.mp hat
      rw [ha]
      rfl
    | succ k =>
      obtain ⟨a', ha', hat⟩ := at_succ.mp hat
      obtain rfl := Option.some.inj (ha.symm.trans ha')
      exact ih hat hkept (by omega)

theorem reaches_zero : M.Reaches s (c :: cs) 0 t d ↔ s = t ∧ c = d :=
  (and_iff_left fun _ hj => absurd hj (Nat.not_lt_zero _)).trans at_zero

theorem reaches_succ : M.Reaches s (c :: cs) (k + 1) t d ↔
    ¬ M.seen s c = true ∧ ∃ m, M.keep s c = some m ∧ M.Reaches m cs k t d := by
  constructor
  · intro ⟨hat, hnone⟩
    obtain ⟨m, hm, hat⟩ := at_succ.mp hat
    refine ⟨fun h0 => hnone 0 (Nat.succ_pos k) (seenAt_zero.mpr h0), m, hm, hat, fun j hj hs => ?_⟩
    exact hnone (j + 1) (Nat.succ_lt_succ hj) (seenAt_succ.mpr ⟨m, hm, hs⟩)
  · intro ⟨hseen, m, hm, hat, hnone⟩
    refine ⟨at_succ.mpr ⟨m, hm, hat⟩, fun j hj hs => ?_⟩
    cases j with
    | zero => exact hseen (seenAt_zero.mp hs)
    | succ j =>
      obtain ⟨m', hm', hs⟩ := seenAt_succ.mp hs
      obtain rfl := Option.some.inj (hm.symm.trans hm')
      exact hnone j (Nat.lt_of_succ_lt_succ hj) hs

/-- **The trace rule.** -/
theorem mem_trace {f : σ → α → Option β} {b : β} :
    b ∈ M.trace f s cs ↔ ∃ k t c, M.Reaches s cs k t c ∧ f t c = some b := by
  induction cs generalizing s with
  | nil =>
    refine ⟨fun h => absurd h List.not_mem_nil, ?_⟩
    intro ⟨k, t, c, ⟨⟨_, hc⟩, _⟩, _⟩
    simp at hc
  | cons e cs ih =>
    unfold trace
    rw [List.mem_append, Option.mem_toList]
    constructor
    · intro h
      rcases h with hhere | hlater
      · exact ⟨0, s, e, reaches_zero.mpr ⟨rfl, rfl⟩, hhere⟩
      · by_cases hseen : M.seen s e = true
        · rw [if_pos hseen] at hlater
          exact absurd hlater List.not_mem_nil
        · rw [if_neg hseen] at hlater
          cases hkeep : M.keep s e with
          | none =>
            rw [hkeep] at hlater
            exact absurd hlater List.not_mem_nil
          | some m =>
            rw [hkeep] at hlater
            obtain ⟨k, t, c, hreach, hf⟩ := ih.mp hlater
            exact ⟨k + 1, t, c, reaches_succ.mpr ⟨hseen, m, hkeep, hreach⟩, hf⟩
    · intro ⟨k, t, c, hreach, hf⟩
      cases k with
      | zero =>
        obtain ⟨rfl, rfl⟩ := reaches_zero.mp hreach
        exact .inl hf
      | succ k =>
        obtain ⟨hseen, m, hkeep, hreach⟩ := reaches_succ.mp hreach
        right
        rw [if_neg hseen, hkeep]
        exact ih.mpr ⟨k, t, c, hreach, hf⟩

/-- How a scan ends. -/
inductive Ends (M : Scanner σ α) (s : σ) (cs : List α) : Fate σ → Prop
  | found (k : Nat) (hseen : M.SeenAt s cs k) (hfirst : ∀ j < k, ¬ M.SeenAt s cs j) :
    Ends M s cs (.found k)
  | lost (k : Nat) (t : σ) (c : α) (hat : M.At s cs k t c) (hkeep : M.keep t c = none)
    (hnone : ∀ j ≤ k, ¬ M.SeenAt s cs j) : Ends M s cs (.lost k)
  | through (t : σ) (hkept : M.kept s cs = some t) (hnone : ∀ j, ¬ M.SeenAt s cs j) :
    Ends M s cs (.through t)

theorem Ends.next {m : σ} {r : Fate σ} (h : Ends M m cs r) (hseen : ¬ M.seen s c = true)
    (hkeep : M.keep s c = some m) : Ends M s (c :: cs) r.next := by
  have hzero : ¬ M.SeenAt s (c :: cs) 0 := fun h0 => hseen (seenAt_zero.mp h0)
  have hsucc : ∀ j, ¬ M.SeenAt m cs j → ¬ M.SeenAt s (c :: cs) (j + 1) := by
    intro j hj hs
    obtain ⟨m', hm', hs⟩ := seenAt_succ.mp hs
    obtain rfl := Option.some.inj (hkeep.symm.trans hm')
    exact hj hs
  cases h with
  | found k hk hfirst =>
    refine .found (k + 1) (seenAt_succ.mpr ⟨m, hkeep, hk⟩) fun j hj => ?_
    cases j with
    | zero => exact hzero
    | succ j => exact hsucc j (hfirst j (by omega))
  | lost k t d hat hlost hnone =>
    refine .lost (k + 1) t d (at_succ.mpr ⟨m, hkeep, hat⟩) hlost fun j hj => ?_
    cases j with
    | zero => exact hzero
    | succ j => exact hsucc j (hnone j (by omega))
  | through t hkept hnone =>
    refine .through t (by rw [kept_cons, hkeep]; exact hkept) fun j => ?_
    cases j with
    | zero => exact hzero
    | succ j => exact hsucc j (hnone j)

/-- **The scan rule.** -/
theorem scan_ends (M : Scanner σ α) (s : σ) (cs : List α) : Ends M s cs (M.scan s cs) := by
  induction cs generalizing s with
  | nil => exact .through s rfl fun _ => seenAt_nil
  | cons c cs ih =>
    unfold scan
    by_cases hseen : M.seen s c = true
    · rw [if_pos hseen]
      exact .found 0 (seenAt_zero.mpr hseen) fun j hj => absurd hj (Nat.not_lt_zero j)
    · rw [if_neg hseen]
      cases hkeep : M.keep s c with
      | some m => exact (ih m).next hseen hkeep
      | none =>
        refine .lost 0 s c (at_zero.mpr ⟨rfl, rfl⟩) hkeep fun j hj => ?_
        obtain rfl : j = 0 := Nat.le_zero.mp hj
        exact fun h0 => hseen (seenAt_zero.mp h0)

theorem seenAt_of_found (h : M.scan s cs = .found k) : M.SeenAt s cs k := by
  have hends := M.scan_ends s cs
  rw [h] at hends
  cases hends with
  | found _ hseen _ => exact hseen

/-! ## Being right about more than one can see -/

/-- The scan ends at the first element that `want` marks, and goes through when
there is none. -/
structure Right (want : Nat → Prop) (n : Nat) (r : Fate σ) : Prop where
  hit : ∀ k < n, want k → (∀ j < k, ¬ want j) → r = .found k
  miss : (∀ k < n, ¬ want k) → ∃ t, r = .through t

/-- **A scan that sees nothing unwanted is right** exactly when it sees the
first wanted element and keeps its state as long as nothing is wanted. -/
theorem scan_right_iff {want : Nat → Prop} (hsound : ∀ k, M.SeenAt s cs k → want k) :
    Right want cs.length (M.scan s cs) ↔
      (∀ k < cs.length, want k → (∀ j < k, ¬ want j) → M.SeenAt s cs k) ∧
      ((∀ k < cs.length, ¬ want k) → (M.kept s cs).isSome) := by
  have hends := M.scan_ends s cs
  constructor
  · intro h
    refine ⟨fun k hk hw hfirst => ?_, fun hnone => ?_⟩
    · rw [h.hit k hk hw hfirst] at hends
      cases hends with
      | found _ hseen _ => exact hseen
    · obtain ⟨t, ht⟩ := h.miss hnone
      rw [ht] at hends
      cases hends with
      | through _ hkept _ => rw [hkept]; rfl
  · rintro ⟨hhit, hmiss⟩
    refine ⟨fun k hk hw hfirst => ?_, fun hnone => ?_⟩
    · have hseen : M.SeenAt s cs k := hhit k hk hw hfirst
      obtain ⟨u, -, ⟨hkept, -⟩, -⟩ := id hseen
      generalize M.scan s cs = r at hends
      cases hends with
      | found j hj hbefore =>
        rcases Nat.lt_trichotomy j k with hlt | rfl | hgt
        · exact absurd (hsound j hj) (hfirst j hlt)
        · rfl
        · exact absurd hseen (hbefore k hgt)
      | lost j t c hat hlost hbefore =>
        by_cases hle : k ≤ j
        · exact absurd hseen (hbefore k hle)
        · have hsome := hat.keep_isSome hkept (by omega)
          rw [hlost] at hsome
          cases hsome
      | through t _ hbefore => exact absurd hseen (hbefore k)
    · obtain ⟨u, hkept⟩ := Option.isSome_iff_exists.mp (hmiss hnone)
      generalize M.scan s cs = r at hends
      cases hends with
      | found j hj _ => exact absurd (hsound j hj) (hnone j hj.lt)
      | lost j t c hat hlost _ =>
        have hall : M.kept s (cs.take cs.length) = some u := by rw [List.take_length]; exact hkept
        have hsome := hat.keep_isSome hall hat.lt
        rw [hlost] at hsome
        cases hsome
      | through t _ _ => exact ⟨t, rfl⟩

end

end Scanner

end Autocom.Lib.Scan
