import Autocom.Lib.Lts
import Mathlib.Logic.Function.Basic

/-! # Operations under one lock

Any number of threads call operations on shared data. An operation takes the
lock, makes its assignments one at a time and gives the lock back, and between
any two steps of one thread the others may move. Under a lock that excludes,
the interleaving is a sequence of whole operations, in the order in which they
took the lock. -/
namespace Autocom.Lib.Monitor
open Autocom.Lib.Lts

/-- Operations `β` on data `δ` with locals `ρ`; what an operation returns is
part of its locals at the end. -/
structure Ops (β δ ρ : Type*) where
  start : β → ρ
  body : β → List (δ × ρ → δ × ρ)

variable {ι β δ ρ : Type*}

/-- The assignments, one after the other. -/
def exec (fs : List (δ × ρ → δ × ρ)) (x : δ × ρ) : δ × ρ := fs.foldl (fun x f => f x) x

/-- The whole operation at once. -/
def Ops.apply (ops : Ops β δ ρ) (b : β) (d : δ) : δ × ρ := exec (ops.body b) (d, ops.start b)

/-- A sequence of whole operations: the data at the end and what each returned. -/
def Ops.sequential (ops : Ops β δ ρ) : δ → List β → δ × List (β × ρ)
  | d, [] => (d, [])
  | d, b :: bs =>
    let (d', r) := ops.apply b d
    let (d'', done) := ops.sequential d' bs
    (d'', (b, r) :: done)

/-- `inside` holds what is still to be done and the locals. -/
inductive Pc (β δ ρ : Type*)
  | idle
  | waiting (b : β)
  | inside (b : β) (rest : List (δ × ρ → δ × ρ)) (l : ρ)

/-- `order` lists the operations as they took the lock, `done` those that gave
it back, with what they returned. -/
structure State (ι β δ ρ : Type*) where
  data : δ
  owner : Option ι
  pcs : ι → Pc β δ ρ
  order : List β
  done : List (β × ρ)

inductive Act (β : Type*)
  | call (b : β)
  | lock
  | work
  | unlock

def init (d : δ) : State ι β δ ρ := ⟨d, none, fun _ => .idle, [], []⟩

def State.goto [DecidableEq ι] (s : State ι β δ ρ) (t : ι) (pc : Pc β δ ρ) : State ι β δ ρ :=
  { s with pcs := Function.update s.pcs t pc }

def step [DecidableEq ι] (ops : Ops β δ ρ) (s : State ι β δ ρ) (a : ι × Act β) :
    Option (State ι β δ ρ) :=
  match a.2, s.pcs a.1 with
  | .call b, .idle => some (s.goto a.1 (.waiting b))
  | .lock, .waiting b =>
    if s.owner = none then
      some ({ s with owner := some a.1, order := s.order ++ [b] }.goto a.1
        (.inside b (ops.body b) (ops.start b)))
    else none
  | .work, .inside b (f :: rest) l =>
    some ({ s with data := (f (s.data, l)).1 }.goto a.1 (.inside b rest (f (s.data, l)).2))
  | .unlock, .inside b [] l =>
    some ({ s with owner := none, done := s.done ++ [(b, l)] }.goto a.1 .idle)
  | _, _ => none

/-- The data and the results once the owner of the lock has finished; they are
those of the state when the lock is free. -/
def State.settled (s : State ι β δ ρ) : δ × List (β × ρ) :=
  match s.owner.map s.pcs with
  | some (.inside b rest l) =>
    let (d, r) := exec rest (s.data, l)
    (d, s.done ++ [(b, r)])
  | _ => (s.data, s.done)

def Pc.isInside : Pc β δ ρ → Bool
  | .inside .. => true
  | _ => false

structure Inv (ops : Ops β δ ρ) (d : δ) (s : State ι β δ ρ) : Prop where
  owner : ∀ t, (s.pcs t).isInside = true ↔ s.owner = some t
  settled : s.settled = ops.sequential d s.order

theorem sequential_append (ops : Ops β δ ρ) (d : δ) (bs : List β) (b : β) :
    ops.sequential d (bs ++ [b]) =
      ((ops.apply b (ops.sequential d bs).1).1,
        (ops.sequential d bs).2 ++ [(b, (ops.apply b (ops.sequential d bs).1).2)]) := by
  induction bs generalizing d with
  | nil => rfl
  | cons c bs ih => simp [Ops.sequential, ih]

theorem sequential_map_fst (ops : Ops β δ ρ) (d : δ) (bs : List β) :
    (ops.sequential d bs).2.map Prod.fst = bs := by
  induction bs generalizing d with
  | nil => rfl
  | cons b bs ih => simp [Ops.sequential, ih]

theorem settled_free {s : State ι β δ ρ} (h : s.owner = none) : s.settled = (s.data, s.done) := by
  simp [State.settled, h]

theorem settled_held {s : State ι β δ ρ} {t : ι} {b : β} {rest : List (δ × ρ → δ × ρ)} {l : ρ}
    (h : s.owner = some t) (hpc : s.pcs t = .inside b rest l) :
    s.settled = ((exec rest (s.data, l)).1, s.done ++ [(b, (exec rest (s.data, l)).2)]) := by
  simp [State.settled, h, hpc]

theorem init_inv (ops : Ops β δ ρ) (d : δ) : Inv ops d (init d : State ι β δ ρ) :=
  ⟨by simp [init, Pc.isInside], rfl⟩

section
variable [DecidableEq ι] (s : State ι β δ ρ) (t : ι) (pc : Pc β δ ρ)

@[simp] theorem goto_data : (s.goto t pc).data = s.data := rfl
@[simp] theorem goto_owner : (s.goto t pc).owner = s.owner := rfl
@[simp] theorem goto_order : (s.goto t pc).order = s.order := rfl
@[simp] theorem goto_done : (s.goto t pc).done = s.done := rfl
@[simp] theorem goto_pcs_self : (s.goto t pc).pcs t = pc := by simp [State.goto]

theorem goto_pcs_ne {u : ι} (h : u ≠ t) : (s.goto t pc).pcs u = s.pcs u := by
  simp [State.goto, h]

end

variable [DecidableEq ι]

/-- A thread that is not inside moves without touching what settles. -/
theorem Inv.goto {ops : Ops β δ ρ} {d : δ} {s : State ι β δ ρ} (h : Inv ops d s) {t : ι}
    {pc : Pc β δ ρ} (hbefore : (s.pcs t).isInside = false) (hafter : pc.isInside = false) :
    Inv ops d (s.goto t pc) := by
  have hfree : s.owner ≠ some t := by
    intro howner
    rw [(h.owner t).mpr howner] at hbefore; cases hbefore
  refine ⟨fun u => ?_, ?_⟩
  · by_cases hu : u = t
    · subst hu
      simp [hafter, hfree]
    · rw [goto_pcs_ne s t pc hu]
      exact h.owner u
  · rw [goto_order, ← h.settled]
    cases howner : s.owner with
    | none => rw [settled_free howner, settled_free (s := s.goto t pc) howner]; rfl
    | some u =>
      have hu : u ≠ t := fun heq => hfree (heq ▸ howner)
      simp [State.settled, howner, goto_pcs_ne s t pc hu]

theorem step_inv {ops : Ops β δ ρ} {d : δ} {s s' : State ι β δ ρ} {a : ι × Act β}
    (h : Inv ops d s) (hstep : step ops s a = some s') : Inv ops d s' := by
  obtain ⟨t, a⟩ := a
  unfold step at hstep
  simp only at hstep
  split at hstep
  · next b hpc => cases hstep; exact h.goto (by rw [hpc]; rfl) rfl
  · next b hpc =>
    split at hstep
    · next hfree =>
      cases hstep
      refine ⟨fun u => ?_, ?_⟩
      · by_cases hu : u = t
        · subst hu; simp [Pc.isInside]
        · have hout : (s.pcs u).isInside = false := by
            simpa [hfree] using h.owner u
          rw [goto_pcs_ne _ _ _ hu]
          simpa [hout] using fun heq => hu heq.symm
      · -- the new owner will do the whole operation on what the others left
        have hbase := h.settled
        rw [settled_free hfree] at hbase
        rw [settled_held (t := t) rfl (goto_pcs_self _ _ _), goto_order, sequential_append, ← hbase]
        rfl
    · cases hstep
  · next b f rest l hpc =>
    cases hstep
    have howner : s.owner = some t := (h.owner t).mp (by rw [hpc]; rfl)
    refine ⟨fun u => ?_, ?_⟩
    · by_cases hu : u = t
      · subst hu; simpa [Pc.isInside] using howner
      · rw [goto_pcs_ne _ _ _ hu]
        exact h.owner u
    · have hbase := h.settled
      rw [settled_held howner hpc] at hbase
      rw [settled_held (t := t) (by simpa using howner) (goto_pcs_self _ _ _)]
      exact hbase
  · next b l hpc =>
    cases hstep
    have howner : s.owner = some t := (h.owner t).mp (by rw [hpc]; rfl)
    refine ⟨fun u => ?_, ?_⟩
    · by_cases hu : u = t
      · subst hu; simp [Pc.isInside]
      · have hout : s.owner ≠ some u := by
          rw [howner]; exact fun heq => hu (Option.some.inj heq).symm
        have hpcu : (s.pcs u).isInside = false := by
          rw [Bool.eq_false_iff]; exact fun hin => hout ((h.owner u).mp hin)
        rw [goto_pcs_ne _ _ _ hu]
        simp [hpcu]
    · have hbase := h.settled
      rw [settled_held howner hpc] at hbase
      rw [settled_free rfl]
      exact hbase
  · cases hstep

/-- What is still to be done is the end of an operation. -/
def Suffixes (ops : Ops β δ ρ) (s : State ι β δ ρ) : Prop :=
  ∀ t b rest l, s.pcs t = .inside b rest l → rest <:+ ops.body b

theorem step_suffixes {ops : Ops β δ ρ} {s s' : State ι β δ ρ} {a : ι × Act β}
    (h : Suffixes ops s) (hstep : step ops s a = some s') : Suffixes ops s' := by
  obtain ⟨t, a⟩ := a
  have hgoto : ∀ (u : State ι β δ ρ) pc, u.pcs = s.pcs →
      (∀ b rest l, pc = .inside b rest l → rest <:+ ops.body b) → Suffixes ops (u.goto t pc) := by
    intro u pc hu hpc t' b rest l ht
    by_cases heq : t' = t
    · subst heq
      exact hpc b rest l (by simpa using ht)
    · rw [goto_pcs_ne _ _ _ heq, hu] at ht
      exact h t' b rest l ht
  unfold step at hstep
  simp only at hstep
  split at hstep
  · cases hstep; exact hgoto s _ rfl nofun
  · split at hstep
    · cases hstep
      refine hgoto _ _ rfl fun b rest l heq => ?_
      cases heq; exact List.suffix_rfl
    · cases hstep
  · next b f rest l hpc =>
    cases hstep
    refine hgoto _ _ rfl fun b' rest' l' heq => ?_
    cases heq
    exact (List.suffix_cons f rest).trans (h t b (f :: rest) l hpc)
  · cases hstep; exact hgoto _ _ rfl nofun
  · cases hstep

theorem run_suffixes {ops : Ops β δ ρ} {d : δ} {s : State ι β δ ρ} {acts : List (ι × Act β)}
    (h : run (step ops) (init d) acts = some s) : Suffixes ops s :=
  run_invariant (fun _ _ _ hs hst => step_suffixes hs hst) (fun _ _ _ _ hpc => by cases hpc) h

/-- A step changes the data only by an assignment of the operation that its
thread is inside of. -/
theorem step_data {ops : Ops β δ ρ} {s s' : State ι β δ ρ} {t : ι} {a : Act β}
    (hs : Suffixes ops s) (hstep : step ops s (t, a) = some s') :
    s'.data = s.data ∨ ∃ b rest l, s.pcs t = .inside b rest l ∧
      ∃ f ∈ ops.body b, s'.data = (f (s.data, l)).1 := by
  unfold step at hstep
  simp only at hstep
  split at hstep
  · cases hstep; exact .inl rfl
  · split at hstep
    · cases hstep; exact .inl rfl
    · cases hstep
  · next b f rest l hpc =>
    cases hstep
    exact .inr ⟨b, f :: rest, l, hpc, f, (hs t b _ l hpc).subset (by simp), rfl⟩
  · cases hstep; exact .inl rfl
  · cases hstep

/-- **Every run settles to the sequence of whole operations in lock order.** -/
theorem run_settled {ops : Ops β δ ρ} {d : δ} {s : State ι β δ ρ} {acts : List (ι × Act β)}
    (h : run (step ops) (init d) acts = some s) : s.settled = ops.sequential d s.order :=
  (run_invariant (fun _ _ _ hs hst => step_inv hs hst) (init_inv ops d) h).settled

end Autocom.Lib.Monitor
