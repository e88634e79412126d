import Autocom.Lib.Links

/-! # Keys scattered over cells

Each key has a home cell. A key that is not in its home is found by following
the links from there, and its cell is then the home of no key that is stored.
Three insertions keep this: into a free home, into a free cell behind the home,
and into a home that a foreign key leaves for a free cell. -/
namespace Autocom.Lib.Scatter
open Autocom.Lib.Links

variable {ι κ : Type*}

structure Layout (home : κ → ι) (key : ι → Option κ) (next : ι → Option ι) : Prop where
  acyclic : Acyclic next
  oneIn : OneIn next
  unique : ∀ i j k, key i = some k → key j = some k → i = j
  reach : ∀ i k, key i = some k → Reach next (home k) i
  foreign : ∀ i k, key i = some k → home k ≠ i → ∀ j k', key j = some k' → home k' ≠ i

variable {home : κ → ι} {key : ι → Option κ} {next : ι → Option ι}

theorem Layout.empty : Layout home (fun _ => none) (fun _ => none) :=
  ⟨acyclic_none, oneIn_none, nofun, nofun, nofun⟩

/-- Keys may go; their cells stay linked. -/
theorem Layout.erase (h : Layout home key next) {key' : ι → Option κ}
    (hsub : ∀ i k, key' i = some k → key i = some k) : Layout home key' next where
  acyclic := h.acyclic
  oneIn := h.oneIn
  unique i j k hi hj := h.unique i j k (hsub i k hi) (hsub j k hj)
  reach i k hi := h.reach i k (hsub i k hi)
  foreign i k hi hne j k' hj := h.foreign i k (hsub i k hi) hne j k' (hsub j k' hj)

/-- A free cell is the home of no stored key. -/
theorem Layout.home_ne (h : Layout home key next) {n : ι} (hn : Unlinked next n)
    (hfree : key n = none) {j : ι} {k : κ} (hj : key j = some k) : home k ≠ n := by
  intro heq
  have hreach := h.reach j k hj
  rw [heq] at hreach
  rw [hreach.stay hn.out, hfree] at hj
  cases hj

/-- A key out of its home has a link to it. -/
theorem Layout.linked (h : Layout home key next) {i : ι} {k : κ} (hi : key i = some k)
    (hne : home k ≠ i) : ∃ b, Reach next (home k) b ∧ next b = some i := by
  rcases Relation.ReflTransGen.cases_tail (h.reach i k hi) with heq | ⟨b, hb, hlink⟩
  · exact absurd heq.symm hne
  · exact ⟨b, hb, hlink⟩

/-! ## Looking a key up -/

/-- **The search from its home finds a key that is there**, and no other cell. -/
theorem Layout.search_iff [DecidableEq κ] (h : Layout home key next) {cells : List ι}
    (hclosed : ∀ i j, next i = some j → j ∈ cells) (k : κ) (hk : home k ∈ cells) :
    ∃ r, search next (fun i => key i == some k) cells.length (home k) = some r ∧
      ∀ i, r = some i ↔ key i = some k := by
  obtain ⟨r, hr⟩ := search_ends h.acyclic hclosed hk fun i => key i == some k
  refine ⟨r, hr, fun i => ⟨fun heq => ?_, fun hi => ?_⟩⟩
  · subst heq
    exact eq_of_beq (search_found hr).2
  · cases r with
    | none =>
      have hmiss := search_missed hr (h.reach i k hi)
      rw [hi, beq_self_eq_true] at hmiss
      cases hmiss
    | some j => rw [h.unique j i k (eq_of_beq (search_found hr).2) hi]

/-! ## Inserting a key -/

variable [DecidableEq ι]

theorem Layout.insert_home (h : Layout home key next) {k : κ} (habsent : ∀ i, key i ≠ some k)
    (hfree : key (home k) = none) :
    Layout home (Function.update key (home k) (some k)) next := by
  have hold : ∀ {i k'}, Function.update key (home k) (some k) i = some k' →
      (i = home k ∧ k' = k) ∨ (i ≠ home k ∧ key i = some k') := by
    intro i k' hi
    by_cases heq : i = home k
    · rw [heq, Function.update_self] at hi
      exact .inl ⟨heq, (Option.some.inj hi).symm⟩
    · rw [Function.update_of_ne heq] at hi
      exact .inr ⟨heq, hi⟩
  refine ⟨h.acyclic, h.oneIn, fun i j k' hi hj => ?_, fun i k' hi => ?_,
    fun i k₁ hi hne j k₂ hj => ?_⟩
  · rcases hold hi with ⟨rfl, rfl⟩ | ⟨-, hi⟩ <;> rcases hold hj with ⟨rfl, hk⟩ | ⟨-, hj⟩
    · rfl
    · exact absurd hj (habsent j)
    · exact absurd (hk ▸ hi) (habsent i)
    · exact h.unique i j k' hi hj
  · rcases hold hi with ⟨rfl, rfl⟩ | ⟨-, hi⟩
    · exact .refl
    · exact h.reach i k' hi
  · rcases hold hi with ⟨rfl, rfl⟩ | ⟨hih, hi⟩
    · exact absurd rfl hne
    · rcases hold hj with ⟨-, rfl⟩ | ⟨-, hj⟩
      · exact hih.symm
      · exact h.foreign i k₁ hi hne j k₂ hj

theorem Layout.insert_behind (h : Layout home key next) {k k₀ : κ} {n : ι}
    (habsent : ∀ i, key i ≠ some k) (hhome : key (home k) = some k₀) (hk₀ : home k₀ = home k)
    (hn : Unlinked next n) (hfree : key n = none) :
    Layout home (Function.update key n (some k)) (insertAfter next (home k) n) := by
  have hne : home k ≠ n := by
    intro heq
    rw [heq, hfree] at hhome
    cases hhome
  have hold : ∀ {i k'}, Function.update key n (some k) i = some k' →
      (i = n ∧ k' = k) ∨ (i ≠ n ∧ key i = some k') := by
    intro i k' hi
    by_cases heq : i = n
    · rw [heq, Function.update_self] at hi
      exact .inl ⟨heq, (Option.some.inj hi).symm⟩
    · rw [Function.update_of_ne heq] at hi
      exact .inr ⟨heq, hi⟩
  refine ⟨h.acyclic.insertAfter hn hne, h.oneIn.insertAfter hn hne, fun i j k' hi hj => ?_,
    fun i k' hi => ?_, fun i k₁ hi hfar j k₂ hj => ?_⟩
  · rcases hold hi with ⟨rfl, rfl⟩ | ⟨-, hi'⟩ <;> rcases hold hj with ⟨rfl, hk⟩ | ⟨-, hj'⟩
    · rfl
    · exact absurd hj' (habsent j)
    · exact absurd (hk ▸ hi') (habsent i)
    · exact h.unique i j k' hi' hj'
  · rcases hold hi with ⟨rfl, rfl⟩ | ⟨-, hi'⟩
    · exact .single (insertAfter_self _ _)
    · exact reach_insertAfter hn hne (h.reach i k' hi')
  · rcases hold hi with ⟨rfl, rfl⟩ | ⟨-, hi'⟩ <;> rcases hold hj with ⟨-, rfl⟩ | ⟨-, hj'⟩
    · exact hne
    · exact h.home_ne hn hfree hj'
    · -- the key in the home is at home
      intro heq
      rw [← heq, hhome] at hi'
      cases hi'
      exact hfar (hk₀.trans heq)
    · exact h.foreign i k₁ hi' hfar j k₂ hj'

theorem Layout.insert_moving (h : Layout home key next) {k k₀ : κ} {b n : ι}
    (habsent : ∀ i, key i ≠ some k) (hhome : key (home k) = some k₀) (hk₀ : home k₀ ≠ home k)
    (hb : next b = some (home k)) (hn : Unlinked next n) (hfree : key n = none) :
    Layout home (Function.update (Function.update key n (some k₀)) (home k) (some k))
      (replace next b (home k) n) := by
  have hne : n ≠ home k := by
    intro heq
    rw [← heq, hfree] at hhome
    cases hhome
  have hr : Replaces next b (home k) n := ⟨hb, hn, hne, h.acyclic, h.oneIn⟩
  have hold : ∀ {i k'}, Function.update (Function.update key n (some k₀)) (home k) (some k) i =
      some k' → (i = home k ∧ k' = k) ∨ (i = n ∧ k' = k₀) ∨
        (i ≠ home k ∧ i ≠ n ∧ key i = some k' ∧ k' ≠ k₀) := by
    intro i k' hi
    by_cases hih : i = home k
    · rw [hih, Function.update_self] at hi
      exact .inl ⟨hih, (Option.some.inj hi).symm⟩
    · rw [Function.update_of_ne hih] at hi
      by_cases hin : i = n
      · rw [hin, Function.update_self] at hi
        exact .inr (.inl ⟨hin, (Option.some.inj hi).symm⟩)
      · rw [Function.update_of_ne hin] at hi
        refine .inr (.inr ⟨hih, hin, hi, fun heq => hih ?_⟩)
        exact h.unique i (home k) k₀ (heq ▸ hi) hhome
  have hk : k ≠ k₀ := fun heq => habsent (home k) (heq ▸ hhome)
  -- no stored key has its home where the foreign key was
  have haway : ∀ {j k'}, key j = some k' → home k' ≠ home k := fun hj =>
    h.foreign (home k) k₀ hhome hk₀ _ _ hj
  refine ⟨hr.acyclic_replace, hr.oneIn_replace, fun i j k' hi hj => ?_, fun i k' hi => ?_,
    fun i k₁ hi hfar j k₂ hj => ?_⟩
  · rcases hold hi with ⟨rfl, rfl⟩ | ⟨rfl, rfl⟩ | ⟨-, -, hi', hi₀⟩ <;>
      rcases hold hj with ⟨rfl, hx⟩ | ⟨rfl, hx⟩ | ⟨-, -, hj', hj₀⟩
    · rfl
    · exact absurd hx hk
    · exact absurd hj' (habsent j)
    · exact absurd hx.symm hk
    · rfl
    · exact absurd rfl hj₀
    · exact absurd (hx ▸ hi') (habsent i)
    · exact absurd hx hi₀
    · exact h.unique i j k' hi' hj'
  · rcases hold hi with ⟨rfl, rfl⟩ | ⟨rfl, rfl⟩ | ⟨hih, -, hi', -⟩
    · exact .refl
    · have hreach := hr.reach (h.reach (home k) k' hhome)
      rwa [if_neg hk₀, if_pos rfl] at hreach
    · have hreach := hr.reach (h.reach i k' hi')
      rwa [if_neg (haway hi'), if_neg hih] at hreach
  · rcases hold hi with ⟨rfl, rfl⟩ | ⟨rfl, rfl⟩ | ⟨hih, -, hi', -⟩
    · exact absurd rfl hfar
    · rcases hold hj with ⟨-, rfl⟩ | ⟨-, rfl⟩ | ⟨-, -, hj', -⟩
      · exact hne.symm
      · exact hfar
      · exact h.home_ne hn hfree hj'
    · rcases hold hj with ⟨-, rfl⟩ | ⟨-, rfl⟩ | ⟨-, -, hj', -⟩
      · exact hih.symm
      · exact h.foreign i k₁ hi' hfar (home k) k₂ hhome
      · exact h.foreign i k₁ hi' hfar j k₂ hj'

end Autocom.Lib.Scatter
