import Mathlib.Logic.Relation
import Mathlib.Data.Option.Basic

/-! # Runs of a partial step function

A system is a function `step : σ → α → Option σ`; `none` says that the action
is not enabled in the state. A run is a list of actions taken one after the
other, so an interleaving of several threads is one list. The rules below carry
a fact from one step to every run: an invariant, an invariant of the runs whose
steps all meet a side condition, and a refinement into an abstract relation. -/
namespace Autocom.Lib.Lts

variable {σ α τ : Type*} {step : σ → α → Option σ}

/-- The state after the actions, `none` if one of them was not enabled. -/
def run (step : σ → α → Option σ) : σ → List α → Option σ
  | s, [] => some s
  | s, a :: rest => (step s a).bind fun t => run step t rest

/-- Each action meets `C` in the state in which it is taken. -/
def Meets (step : σ → α → Option σ) (C : σ → α → Prop) : σ → List α → Prop
  | _, [] => True
  | s, a :: rest => C s a ∧ ∀ t, step s a = some t → Meets step C t rest

instance Meets.decidable {C : σ → α → Prop} [∀ s a, Decidable (C s a)] :
    ∀ s acts, Decidable (Meets step C s acts)
  | _, [] => isTrue trivial
  | s, a :: rest =>
    match h : step s a with
    | none => decidable_of_iff (C s a) (by simp [Meets, h])
    | some t =>
      have : Decidable (Meets step C t rest) := Meets.decidable (C := C) t rest
      decidable_of_iff (C s a ∧ Meets step C t rest) (by simp [Meets, h])

/-- `P` holds in every state that the run reaches, both ends included. -/
def Along (step : σ → α → Option σ) (P : σ → Prop) : σ → List α → Prop
  | s, [] => P s
  | s, a :: rest => P s ∧ ∀ t, step s a = some t → Along step P t rest

@[simp] theorem run_nil (s : σ) : run step s [] = some s := rfl

theorem run_cons {s t : σ} {a : α} {rest : List α} :
    run step s (a :: rest) = some t ↔ ∃ m, step s a = some m ∧ run step m rest = some t := by
  simp [run, Option.bind_eq_some_iff]

theorem meets_cons {C : σ → α → Prop} {s t : σ} {a : α} {rest : List α} (hc : C s a)
    (hstep : step s a = some t) (h : Meets step C t rest) : Meets step C s (a :: rest) := by
  refine ⟨hc, fun u hu => ?_⟩
  obtain rfl : t = u := Option.some.inj (hstep.symm.trans hu)
  exact h

/-- A condition on the actions alone is met in whatever states they are taken. -/
theorem meets_of_forall {C : α → Prop} {acts : List α} (h : ∀ a ∈ acts, C a) (s : σ) :
    Meets step (fun _ a => C a) s acts := by
  induction acts generalizing s with
  | nil => trivial
  | cons a rest ih =>
    exact ⟨h a (by simp), fun t _ => ih (fun b hb => h b (by simp [hb])) t⟩

/-- Conditions that are the same in every state are met by the same runs. -/
theorem meets_congr {C D : σ → α → Prop} (h : ∀ s a, C s a ↔ D s a) {s : σ} {acts : List α} :
    Meets step C s acts ↔ Meets step D s acts := by
  have hCD : C = D := funext fun s => funext fun a => propext (h s a)
  rw [hCD]

/-- **The run rule.** What every step keeps while its side condition is met, a
run keeps whose steps all meet it. -/
theorem run_keeps {I : σ → Prop} {C : σ → α → Prop}
    (hstep : ∀ s a t, I s → C s a → step s a = some t → I t)
    {s t : σ} {acts : List α} (hi : I s) (hm : Meets step C s acts)
    (h : run step s acts = some t) : I t := by
  induction acts generalizing s with
  | nil => cases h; exact hi
  | cons a rest ih =>
    obtain ⟨m, ha, hr⟩ := run_cons.mp h
    exact ih (hstep s a m hi hm.1 ha) (hm.2 m ha) hr

/-- An invariant of every step is one of every run. -/
theorem run_invariant {I : σ → Prop} (hstep : ∀ s a t, I s → step s a = some t → I t)
    {s t : σ} {acts : List α} (hi : I s) (h : run step s acts = some t) : I t :=
  run_keeps (C := fun _ _ => True) (fun s a t hs _ ha => hstep s a t hs ha) hi
    (meets_of_forall (C := fun _ => True) (fun _ _ => trivial) s) h

/-- **The run rule, in every state reached.** An invariant that implies `P`
gives `P` along each run whose steps all meet the side condition. -/
theorem along_of_keeps {I P : σ → Prop} {C : σ → α → Prop} (hP : ∀ s, I s → P s)
    (hstep : ∀ s a t, I s → C s a → step s a = some t → I t)
    {s : σ} {acts : List α} (hi : I s) (hm : Meets step C s acts) :
    Along step P s acts := by
  induction acts generalizing s with
  | nil => exact hP s hi
  | cons a rest ih =>
    exact ⟨hP s hi, fun t ha => ih (hstep s a t hi hm.1 ha) (hm.2 t ha)⟩

/-- **A condition that is on record.** If `G` holds after a step exactly when it
held before and the step met `C`, it tells of a whole run whether its steps did. -/
theorem run_records {G : σ → Prop} {C : σ → α → Prop}
    (hstep : ∀ s a t, step s a = some t → (G t ↔ C s a ∧ G s))
    {s t : σ} {acts : List α} (h : run step s acts = some t) :
    G t ↔ Meets step C s acts ∧ G s := by
  induction acts generalizing s with
  | nil => cases h; exact (and_iff_right trivial).symm
  | cons a rest ih =>
    obtain ⟨m, ha, hr⟩ := run_cons.mp h
    rw [ih hr, hstep s a m ha]
    constructor
    · intro ⟨hm, hc, hg⟩
      exact ⟨meets_cons hc ha hm, hg⟩
    · intro ⟨hm, hg⟩
      exact ⟨hm.2 m ha, hm.1, hg⟩

/-- **Refinement.** If `R` relates the concrete state to an abstract one and
each concrete step is matched by abstract steps, then so is each run. -/
theorem run_refines {R : σ → τ → Prop} {C : σ → α → Prop} {Abs : τ → τ → Prop}
    (hstep : ∀ s a t p, R s p → C s a → step s a = some t →
      ∃ q, Relation.ReflTransGen Abs p q ∧ R t q)
    {s t : σ} {p : τ} {acts : List α} (hr : R s p) (hm : Meets step C s acts)
    (h : run step s acts = some t) : ∃ q, Relation.ReflTransGen Abs p q ∧ R t q := by
  induction acts generalizing s p with
  | nil => cases h; exact ⟨p, .refl, hr⟩
  | cons a rest ih =>
    obtain ⟨m, ha, hrest⟩ := run_cons.mp h
    obtain ⟨q, hpq, hq⟩ := hstep s a m p hr hm.1 ha
    obtain ⟨q', hqq, hq'⟩ := ih hq (hm.2 m ha) hrest
    exact ⟨q', hpq.trans hqq, hq'⟩

theorem run_append {s m t : σ} {acts rest : List α} (h : run step s acts = some m)
    (hr : run step m rest = some t) : run step s (acts ++ rest) = some t := by
  induction acts generalizing s with
  | nil => cases h; exact hr
  | cons a acts ih =>
    obtain ⟨u, ha, hu⟩ := run_cons.mp h
    exact run_cons.mpr ⟨u, ha, ih hu⟩

/-- **Simulation by a relation**: two systems take the same actions, and the second
can whenever the first does. -/
theorem run_follows {step' : τ → α → Option τ} {R : σ → τ → Prop}
    (hstep : ∀ s u a t, R s u → step s a = some t → ∃ v, step' u a = some v ∧ R t v)
    {s t : σ} {u : τ} {acts : List α} (hR : R s u) (h : run step s acts = some t) :
    ∃ v, run step' u acts = some v ∧ R t v := by
  induction acts generalizing s u with
  | nil => cases h; exact ⟨u, rfl, hR⟩
  | cons a rest ih =>
    obtain ⟨m, ha, hr⟩ := run_cons.mp h
    obtain ⟨m', ha', hR'⟩ := hstep s u a m hR ha
    obtain ⟨v, hr', hv⟩ := ih hR' hr
    exact ⟨v, run_cons.mpr ⟨m', ha', hr'⟩, hv⟩

/-- What the actions of a run cost together. -/
def total (cost : α → Nat) : List α → Nat
  | [] => 0
  | a :: rest => cost a + total cost rest

theorem total_const (n : Nat) (acts : List α) : total (fun _ => n) acts = n * acts.length := by
  induction acts with
  | nil => rfl
  | cons a rest ih => rw [total, ih, List.length_cons, Nat.mul_add, Nat.mul_one, Nat.add_comm]

theorem total_countP (p : α → Bool) (n : Nat) (acts : List α) :
    total (fun a => n * (p a).toNat) acts = n * acts.countP p := by
  induction acts with
  | nil => rfl
  | cons a rest ih =>
    rw [total, ih, List.countP_cons, Nat.mul_add, Nat.add_comm]
    cases p a <;> rfl

/-- **A rank bounds the runs.** If each step pays its cost out of the rank, but for
what it gains, then the costs of a run are bounded by its gains and its first rank. -/
theorem run_cost_le (I : σ → Prop) (rank : σ → Nat) (cost gain : α → Nat)
    (hstep : ∀ s a t, I s → step s a = some t → I t ∧ cost a + rank t ≤ rank s + gain a)
    {s t : σ} {acts : List α} (hi : I s) (h : run step s acts = some t) :
    I t ∧ total cost acts + rank t ≤ rank s + total gain acts := by
  induction acts generalizing s with
  | nil => cases h; exact ⟨hi, Nat.le_of_eq (Nat.zero_add _)⟩
  | cons a rest ih =>
    obtain ⟨m, ha, hr⟩ := run_cons.mp h
    obtain ⟨him, hle⟩ := hstep s a m hi ha
    obtain ⟨ht, hrest⟩ := ih him hr
    refine ⟨ht, ?_⟩
    rw [total, total]
    omega

end Autocom.Lib.Lts
