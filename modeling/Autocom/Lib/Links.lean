import Mathlib.Logic.Relation
import Mathlib.Data.List.Perm.Subperm
import Mathlib.Data.List.Nodup

/-! # Cells and links

Each cell has a link to at most one other. A search follows the links; on cells
without a cycle it ends after as many steps as there are cells. Two changes keep
the cells free of cycles and each with one link to it at most: a free cell is
linked in behind another, or takes the place of another. -/
namespace Autocom.Lib.Links

variable {ι : Type*}

def Step (next : ι → Option ι) (i j : ι) : Prop := next i = some j

abbrev Reach (next : ι → Option ι) : ι → ι → Prop := Relation.ReflTransGen (Step next)

/-- Links go down in some rank. -/
def Acyclic (next : ι → Option ι) : Prop :=
  ∃ rank : ι → Nat, ∀ i j, next i = some j → rank j < rank i

/-- No cell has two links to it. -/
def OneIn (next : ι → Option ι) : Prop := ∀ i j x, next i = some x → next j = some x → i = j

/-- No link leads from the cell or to it. -/
structure Unlinked (next : ι → Option ι) (n : ι) : Prop where
  out : next n = none
  into : ∀ i, next i ≠ some n

theorem acyclic_none : Acyclic (fun _ : ι => none) := ⟨fun _ => 0, nofun⟩

theorem oneIn_none : OneIn (fun _ : ι => none) := nofun

theorem reach_rank {next : ι → Option ι} {rank : ι → Nat}
    (hrank : ∀ i j, next i = some j → rank j < rank i) {i j : ι} (h : Reach next i j) :
    rank j ≤ rank i := by
  induction h with
  | refl => exact Nat.le_refl _
  | tail _ hlast ih => exact Nat.le_trans (Nat.le_of_lt (hrank _ _ hlast)) ih

theorem Acyclic.ne {next : ι → Option ι} (h : Acyclic next) {i j : ι} (hij : next i = some j) :
    i ≠ j := by
  obtain ⟨rank, hrank⟩ := h
  intro heq
  exact absurd (hrank i j hij) (heq ▸ Nat.lt_irrefl _)

/-- Nothing but itself is reached from a cell without a link. -/
theorem Reach.stay {next : ι → Option ι} {i j : ι} (hi : next i = none) (h : Reach next i j) :
    j = i := by
  induction h using Relation.ReflTransGen.head_induction_on with
  | refl => rfl
  | head hstep _ _ =>
    rw [Step, hi] at hstep
    cases hstep

/-! ## The search -/

/-- The first cell from `i` on that meets `p`; `some none` at the end of the
links, `none` when the steps are used up. -/
def search (next : ι → Option ι) (p : ι → Bool) : Nat → ι → Option (Option ι)
  | 0, _ => none
  | fuel + 1, i =>
    if p i then some (some i)
    else match next i with
      | none => some none
      | some j => search next p fuel j

theorem search_found {next : ι → Option ι} {p : ι → Bool} {fuel : Nat} {i j : ι}
    (h : search next p fuel i = some (some j)) : Reach next i j ∧ p j = true := by
  induction fuel generalizing i with
  | zero => cases h
  | succ fuel ih =>
    rw [search] at h
    split at h
    · next hp => cases h; exact ⟨.refl, hp⟩
    · split at h
      · cases h
      · next m hm =>
        obtain ⟨hreach, hp⟩ := ih h
        exact ⟨hreach.head hm, hp⟩

theorem search_missed {next : ι → Option ι} {p : ι → Bool} {fuel : Nat} {i j : ι}
    (h : search next p fuel i = some none) (hreach : Reach next i j) : p j = false := by
  induction fuel generalizing i with
  | zero => cases h
  | succ fuel ih =>
    rw [search] at h
    split at h
    · cases h
    · next hp =>
      rcases Relation.ReflTransGen.cases_head hreach with rfl | ⟨m, him, hmj⟩
      · exact Bool.eq_false_iff.mpr hp
      · rw [show next i = some m from him] at h
        exact ih h hmj

/-- A search that does not end has passed more cells than it had steps. -/
theorem search_none {next : ι → Option ι} {p : ι → Bool} {rank : ι → Nat}
    (hrank : ∀ i j, next i = some j → rank j < rank i) {fuel : Nat} {i : ι}
    (h : search next p fuel i = none) :
    ∃ l : List ι, l.length = fuel + 1 ∧ l.Nodup ∧ ∀ x ∈ l, Reach next i x := by
  induction fuel generalizing i with
  | zero => exact ⟨[i], rfl, List.nodup_singleton i, fun x hx => List.mem_singleton.mp hx ▸ .refl⟩
  | succ fuel ih =>
    rw [search] at h
    split at h
    · cases h
    · split at h
      · cases h
      · next j hj =>
        obtain ⟨l, hlength, hnodup, hreach⟩ := ih h
        have hi : i ∉ l := fun hmem =>
          absurd (reach_rank hrank (hreach i hmem)) (Nat.not_le.mpr (hrank i j hj))
        refine ⟨i :: l, by rw [List.length_cons, hlength], List.nodup_cons.mpr ⟨hi, hnodup⟩, ?_⟩
        intro x hx
        rcases List.mem_cons.mp hx with rfl | hx
        · exact .refl
        · exact (hreach x hx).head hj

/-- **The search ends** after as many steps as there are cells. -/
theorem search_ends {next : ι → Option ι} (hacyclic : Acyclic next) {cells : List ι}
    (hclosed : ∀ i j, next i = some j → j ∈ cells) {i : ι} (hi : i ∈ cells) (p : ι → Bool) :
    ∃ r, search next p cells.length i = some r := by
  obtain ⟨rank, hrank⟩ := hacyclic
  refine Option.ne_none_iff_exists'.mp fun hnone => ?_
  obtain ⟨l, hlength, hnodup, hreach⟩ := search_none hrank hnone
  have hsub : l ⊆ cells := by
    intro x hx
    cases hreach x hx with
    | refl => exact hi
    | tail _ hlast => exact hclosed _ _ hlast
  have hle := (hnodup.subperm hsub).length_le
  omega

/-! ## Two changes -/

/-- `b` links to `a`, and `n` is free to take the place of `a`. -/
structure Replaces (next : ι → Option ι) (b a n : ι) : Prop where
  link : next b = some a
  unlinked : Unlinked next n
  ne : n ≠ a
  acyclic : Acyclic next
  oneIn : OneIn next

theorem Replaces.before_ne {b a n : ι} (h : Replaces next b a n) : b ≠ a ∧ b ≠ n := by
  refine ⟨h.acyclic.ne h.link, fun heq => ?_⟩
  have hlink := h.link
  rw [heq, h.unlinked.out] at hlink
  cases hlink

section Change
variable [DecidableEq ι] {next : ι → Option ι}

/-- `n` behind `a`. -/
def insertAfter (next : ι → Option ι) (a n : ι) : ι → Option ι :=
  Function.update (Function.update next n (next a)) a (some n)

theorem insertAfter_self (a n : ι) : insertAfter next a n a = some n := Function.update_self ..

theorem insertAfter_new {a n : ι} (hne : a ≠ n) : insertAfter next a n n = next a := by
  rw [insertAfter, Function.update_of_ne hne.symm, Function.update_self]

theorem insertAfter_other {a n i : ι} (ha : i ≠ a) (hn : i ≠ n) :
    insertAfter next a n i = next i := by
  rw [insertAfter, Function.update_of_ne ha, Function.update_of_ne hn]

/-- The three kinds of links afterwards. -/
theorem insertAfter_link {a n i j : ι} (hne : a ≠ n) (h : insertAfter next a n i = some j) :
    (i = a ∧ j = n) ∨ (i = n ∧ next a = some j) ∨ (i ≠ a ∧ i ≠ n ∧ next i = some j) := by
  by_cases ha : i = a
  · subst ha
    rw [insertAfter_self] at h
    exact .inl ⟨rfl, (Option.some.inj h).symm⟩
  · by_cases hn : i = n
    · subst hn
      rw [insertAfter_new hne] at h
      exact .inr (.inl ⟨rfl, h⟩)
    · rw [insertAfter_other ha hn] at h
      exact .inr (.inr ⟨ha, hn, h⟩)

theorem Acyclic.insertAfter (h : Acyclic next) {a n : ι} (hn : Unlinked next n) (hne : a ≠ n) :
    Acyclic (insertAfter next a n) := by
  obtain ⟨rank, hrank⟩ := h
  -- room for `n` right below `a`
  refine ⟨fun i => if i = n then 2 * rank a else 2 * rank i + 1, fun i j hij => ?_⟩
  beta_reduce
  rcases insertAfter_link hne hij with ⟨rfl, rfl⟩ | ⟨rfl, haj⟩ | ⟨-, hin, hlink⟩
  · rw [if_pos rfl, if_neg hne]
    exact Nat.lt_succ_self _
  · have hj : j ≠ i := fun heq => hn.into a (heq ▸ haj)
    have hlt := hrank a j haj
    rw [if_pos rfl, if_neg hj]
    omega
  · have hj : j ≠ n := fun heq => hn.into i (heq ▸ hlink)
    have hlt := hrank i j hlink
    rw [if_neg hin, if_neg hj]
    omega

theorem OneIn.insertAfter (h : OneIn next) {a n : ι} (hn : Unlinked next n) (hne : a ≠ n) :
    OneIn (insertAfter next a n) := by
  intro i j x hi hj
  rcases insertAfter_link hne hi with ⟨rfl, rfl⟩ | ⟨rfl, hax⟩ | ⟨hia, -, hix⟩ <;>
    rcases insertAfter_link hne hj with ⟨rfl, hx⟩ | ⟨rfl, hax'⟩ | ⟨hja, -, hjx⟩
  · rfl
  · exact absurd hax' (hn.into _)
  · exact absurd hjx (hn.into _)
  · exact absurd (hx ▸ hax) (hn.into _)
  · rfl
  · exact absurd (h _ _ _ hjx hax) hja
  · exact absurd (hx ▸ hix) (hn.into _)
  · exact absurd (h _ _ _ hix hax') hia
  · exact h _ _ _ hix hjx

theorem reach_insertAfter {a n : ι} (hn : Unlinked next n) (hne : a ≠ n) {i j : ι}
    (h : Reach next i j) : Reach (insertAfter next a n) i j := by
  refine Relation.ReflTransGen.lift' id (fun x y hxy => ?_) i j h
  change Reach (insertAfter next a n) x y
  by_cases hx : x = a
  · subst hx
    have hxn : Step (insertAfter next x n) x n := insertAfter_self x n
    have hny : Step (insertAfter next x n) n y := (insertAfter_new hne).trans hxy
    exact (Relation.ReflTransGen.single hny).head hxn
  · have hxn : x ≠ n := by
      intro heq
      rw [Step, heq, hn.out] at hxy
      cases hxy
    exact .single ((insertAfter_other hx hxn).trans hxy)

/-! ## Taking the place of a cell -/

/-- `n` in the place of `a`, which `b` links to. -/
def replace (next : ι → Option ι) (b a n : ι) : ι → Option ι :=
  Function.update (Function.update (Function.update next b (some n)) n (next a)) a none

theorem replace_old (b a n : ι) : replace next b a n a = none := Function.update_self ..

theorem replace_new {b a n : ι} (hne : n ≠ a) : replace next b a n n = next a := by
  rw [replace, Function.update_of_ne hne, Function.update_self]

theorem replace_before {b a n : ι} (ha : b ≠ a) (hn : b ≠ n) :
    replace next b a n b = some n := by
  rw [replace, Function.update_of_ne ha, Function.update_of_ne hn, Function.update_self]

theorem replace_other {b a n i : ι} (ha : i ≠ a) (hn : i ≠ n) (hb : i ≠ b) :
    replace next b a n i = next i := by
  rw [replace, Function.update_of_ne ha, Function.update_of_ne hn, Function.update_of_ne hb]

theorem replace_link {b a n i j : ι} (h : Replaces next b a n)
    (hij : replace next b a n i = some j) :
    (i = b ∧ j = n) ∨ (i = n ∧ next a = some j) ∨ (i ≠ b ∧ i ≠ a ∧ i ≠ n ∧ next i = some j) := by
  obtain ⟨hba, hbn⟩ := h.before_ne
  by_cases ha : i = a
  · subst ha
    rw [replace_old] at hij
    cases hij
  · by_cases hn : i = n
    · subst hn
      rw [replace_new h.ne] at hij
      exact .inr (.inl ⟨rfl, hij⟩)
    · by_cases hb : i = b
      · subst hb
        rw [replace_before hba hbn] at hij
        exact .inl ⟨rfl, (Option.some.inj hij).symm⟩
      · rw [replace_other ha hn hb] at hij
        exact .inr (.inr ⟨hb, ha, hn, hij⟩)

theorem Replaces.acyclic_replace {b a n : ι} (h : Replaces next b a n) :
    Acyclic (replace next b a n) := by
  obtain ⟨rank, hrank⟩ := h.acyclic
  refine ⟨Function.update rank n (rank a), fun i j hij => ?_⟩
  have hne : ∀ {x y : ι}, next x = some y → y ≠ n := fun {x y} hxy heq =>
    h.unlinked.into x (heq ▸ hxy)
  rcases replace_link h hij with ⟨rfl, rfl⟩ | ⟨rfl, haj⟩ | ⟨-, -, hin, hlink⟩
  · rw [Function.update_self, Function.update_of_ne h.before_ne.2]
    exact hrank _ _ h.link
  · rw [Function.update_self, Function.update_of_ne (hne haj)]
    exact hrank _ _ haj
  · rw [Function.update_of_ne hin, Function.update_of_ne (hne hlink)]
    exact hrank _ _ hlink

theorem Replaces.oneIn_replace {b a n : ι} (h : Replaces next b a n) :
    OneIn (replace next b a n) := by
  intro i j x hi hj
  rcases replace_link h hi with ⟨rfl, rfl⟩ | ⟨rfl, hax⟩ | ⟨-, hia, -, hix⟩ <;>
    rcases replace_link h hj with ⟨rfl, hx⟩ | ⟨rfl, hax'⟩ | ⟨-, hja, -, hjx⟩
  · rfl
  · exact absurd hax' (h.unlinked.into _)
  · exact absurd hjx (h.unlinked.into _)
  · exact absurd (hx ▸ hax) (h.unlinked.into _)
  · rfl
  · exact absurd (h.oneIn _ _ _ hjx hax) hja
  · exact absurd (hx ▸ hix) (h.unlinked.into _)
  · exact absurd (h.oneIn _ _ _ hix hax') hia
  · exact h.oneIn _ _ _ hix hjx

/-- What was reached is reached, with `n` for `a`. -/
theorem Replaces.reach {b a n : ι} (h : Replaces next b a n) {i j : ι} (hij : Reach next i j) :
    Reach (replace next b a n) (if i = a then n else i) (if j = a then n else j) := by
  obtain ⟨hba, hbn⟩ := h.before_ne
  refine Relation.ReflTransGen.lift (fun x => if x = a then n else x) (fun x y hxy => ?_) i j hij
  change Step (replace next b a n) (if x = a then n else x) (if y = a then n else y)
  have hyn : y ≠ n := fun heq => h.unlinked.into x (heq ▸ hxy)
  by_cases hx : x = a
  · subst hx
    have hy : y ≠ x := (h.acyclic.ne hxy).symm
    rw [if_pos rfl, if_neg hy]
    exact (replace_new h.ne).trans hxy
  · rw [if_neg hx]
    by_cases hy : y = a
    · subst hy
      obtain rfl : x = b := h.oneIn _ _ _ hxy h.link
      rw [if_pos rfl]
      exact replace_before hx hbn
    · have hxn : x ≠ n := by
        intro heq
        rw [Step, heq, h.unlinked.out] at hxy
        cases hxy
      have hxb : x ≠ b := by
        intro heq
        rw [Step, heq, h.link] at hxy
        exact hy (Option.some.inj hxy).symm
      rw [if_neg hy]
      exact (replace_other hx hxn hxb).trans hxy

end Change

end Autocom.Lib.Links
