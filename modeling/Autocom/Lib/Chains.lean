import Mathlib.Data.Finset.Card
import Mathlib.Data.List.Nodup
import Mathlib.Logic.Function.Basic

/-! # Linked lists over cells

The cells from a start to the end of the links are a list without repetitions.
A search that remembers the cell before it splits that list. Several lists that
share the cells out are `Buckets`: a cell goes to the front of one, and out of one. -/
namespace Autocom.Lib.Chains

variable {ι : Type*}

/-- The cells from a start to the end. -/
inductive Chain (next : ι → Option ι) : Option ι → List ι → Prop
  | nil : Chain next none []
  | cons {i : ι} {l : List ι} (rest : Chain next (next i) l) : Chain next (some i) (i :: l)

/-- The cell before, and the first cell that meets `p` or the end; `none` when the
steps are used up. -/
def seek (next : ι → Option ι) (p : ι → Bool) :
    Nat → Option ι → Option ι → Option (Option ι × Option ι)
  | _, prev, none => some (prev, none)
  | 0, _, some _ => none
  | fuel + 1, prev, some i =>
    if p i then some (prev, some i) else seek next p fuel (some i) (next i)

section
variable {next : ι → Option ι}

theorem Chain.start {s : Option ι} {l : List ι} (h : Chain next s l) : s = l.head? := by
  cases h <;> rfl

theorem Chain.tail {i : ι} {l : List ι} (h : Chain next (some i) (i :: l)) :
    Chain next (next i) l := by
  cases h with
  | cons rest => exact rest

/-- A start has one list. -/
theorem Chain.unique {s : Option ι} {l l' : List ι} (h : Chain next s l)
    (h' : Chain next s l') : l = l' := by
  induction h generalizing l' with
  | nil => cases h'; rfl
  | cons _ ih =>
    cases h' with
    | cons rest' => rw [ih rest']

/-- The list from a cell on. -/
theorem Chain.drop {s : Option ι} {front back : List ι} (h : Chain next s (front ++ back)) :
    Chain next back.head? back := by
  induction front generalizing s with
  | nil => rwa [List.nil_append, h.start] at h
  | cons i front ih =>
    cases h with
    | cons rest => exact ih rest

/-- A cell that came again would be followed by two lists. -/
theorem Chain.nodup {s : Option ι} {l : List ι} (h : Chain next s l) : l.Nodup := by
  induction h with
  | nil => exact List.nodup_nil
  | @cons i l rest ih =>
    refine List.nodup_cons.mpr ⟨fun hi => ?_, ih⟩
    obtain ⟨front, back, rfl⟩ := List.append_of_mem hi
    have hback : Chain next (some i) (i :: back) := rest.drop
    have heq : i :: (front ++ i :: back) = i :: back := (Chain.cons rest).unique hback
    have hlen := congrArg List.length heq
    simp only [List.length_cons, List.length_append] at hlen
    omega

/-- The links of other cells may change. -/
theorem Chain.congr {next' : ι → Option ι} {s : Option ι} {l : List ι} (h : Chain next s l)
    (heq : ∀ i ∈ l, next' i = next i) : Chain next' s l := by
  induction h with
  | nil => exact .nil
  | cons _ ih =>
    refine .cons ?_
    rw [heq _ List.mem_cons_self]
    exact ih fun i hi => heq i (List.mem_cons_of_mem _ hi)

/-- **The search splits the list.** -/
theorem Chain.seek_spec (p : ι → Bool) {s : Option ι} {l : List ι} (h : Chain next s l)
    {fuel : Nat} (hfuel : l.length ≤ fuel) (prev : Option ι) :
    ∃ front back, l = front ++ back ∧ (∀ i ∈ front, p i = false) ∧
      (∀ i, back.head? = some i → p i = true) ∧
      seek next p fuel prev s = some (front.getLast?.or prev, back.head?) := by
  induction h generalizing fuel prev with
  | nil => exact ⟨[], [], rfl, nofun, nofun, by cases fuel <;> rfl⟩
  | @cons i l _ ih =>
    cases fuel with
    | zero => cases hfuel
    | succ fuel =>
      rw [seek]
      by_cases hp : p i = true
      · rw [if_pos hp]
        refine ⟨[], i :: l, rfl, nofun, fun j hj => ?_, rfl⟩
        rw [← Option.some.inj hj]
        exact hp
      · rw [if_neg hp]
        obtain ⟨front, back, rfl, hfront, hback, hseek⟩ :=
          ih (Nat.le_of_succ_le_succ hfuel) (some i)
        refine ⟨i :: front, back, rfl, fun j hj => ?_, hback, ?_⟩
        · rcases List.mem_cons.mp hj with rfl | hj
          · exact Bool.eq_false_iff.mpr hp
          · exact hfront j hj
        · rw [hseek, List.getLast?_cons]
          cases front.getLast? <;> rfl

variable [DecidableEq ι]

/-- A cell that is not in the list goes to its front. -/
theorem Chain.push {s : Option ι} {l : List ι} (h : Chain next s l) {i : ι} (hi : i ∉ l) :
    Chain (Function.update next i s) (some i) (i :: l) := by
  refine .cons ?_
  rw [Function.update_self]
  refine h.congr fun j hj => Function.update_of_ne ?_ _ _
  exact fun heq => hi (heq ▸ hj)

/-- A cell with one before it is taken out. -/
theorem Chain.unlink {s : Option ι} {front back : List ι} {q i : ι}
    (h : Chain next s (front ++ i :: back)) (hq : front.getLast? = some q) :
    Chain (Function.update next q (next i)) s (front ++ back) := by
  induction front generalizing s with
  | nil => cases hq
  | cons j front ih =>
    have hj : j ∉ front ++ i :: back := (List.nodup_cons.mp h.nodup).1
    cases h with
    | cons rest =>
      refine .cons ?_
      cases front with
      | nil =>
        obtain rfl : j = q := Option.some.inj hq
        have hi : Chain next (some i) (i :: back) := rest.drop
        rw [Function.update_self]
        refine hi.tail.congr fun x hx => Function.update_of_ne ?_ _ _
        exact fun heq => hj (heq ▸ List.mem_cons_of_mem i hx)
      | cons k front =>
        have hlast : (k :: front).getLast? = some q := by rwa [List.getLast?_cons_cons] at hq
        have hne : j ≠ q := by
          intro heq
          rw [heq] at hj
          exact hj (List.mem_append_left _ (List.mem_of_getLast? hlast))
        rw [Function.update_of_ne hne]
        exact ih rest hlast

end

/-! ## Several lists -/

variable {κ : Type*}

/-- The list from `head b` has the cells whose place is `b`, each once. -/
structure Buckets (next : ι → Option ι) (head : κ → Option ι) (cells : Finset ι)
    (place : ι → κ) : Prop where
  chain : ∀ b, ∃ l, Chain next (head b) l ∧ ∀ i, i ∈ l ↔ i ∈ cells ∧ place i = b

/-- `i` is in the list from `s`, right behind `prev`. -/
def Behind (next : ι → Option ι) (s prev : Option ι) (i : ι) : Prop :=
  ∃ front back, Chain next s (front ++ i :: back) ∧ front.getLast? = prev

variable {next : ι → Option ι} {head : κ → Option ι} {cells : Finset ι} {place : ι → κ}

theorem Buckets.empty (next : ι → Option ι) (place : ι → κ) :
    Buckets next (fun _ => none) ∅ place :=
  ⟨fun _ => ⟨[], .nil, fun _ => iff_of_false nofun fun h => absurd h.1 (Finset.notMem_empty _)⟩⟩

theorem Chain.length_le {s : Option ι} {l : List ι} (h : Chain next s l)
    (hmem : ∀ i ∈ l, i ∈ cells) : l.length ≤ cells.card := by
  classical
  rw [← List.toFinset_card_of_nodup h.nodup]
  refine Finset.card_le_card fun i hi => ?_
  exact hmem i (List.mem_toFinset.mp hi)

/-- A search of one list finds the first cell with `p`, or there is none. -/
theorem Buckets.seek_spec (h : Buckets next head cells place) (p : ι → Bool) (b : κ)
    {fuel : Nat} (hfuel : cells.card ≤ fuel) :
    (∃ prev, seek next p fuel none (head b) = some (prev, none) ∧
      ∀ i ∈ cells, place i = b → p i = false) ∨
    (∃ prev i, seek next p fuel none (head b) = some (prev, some i) ∧ i ∈ cells ∧
      place i = b ∧ p i = true ∧ Behind next (head b) prev i) := by
  obtain ⟨l, hchain, hmem⟩ := h.chain b
  have hlen : l.length ≤ fuel :=
    le_trans (hchain.length_le fun i hi => ((hmem i).mp hi).1) hfuel
  obtain ⟨front, back, rfl, hfront, hback, hseek⟩ := hchain.seek_spec p hlen none
  rw [Option.or_none] at hseek
  cases back with
  | nil =>
    refine .inl ⟨_, hseek, fun i hi hb => hfront i ?_⟩
    have := (hmem i).mpr ⟨hi, hb⟩
    rwa [List.append_nil] at this
  | cons i back =>
    obtain ⟨hi, hb⟩ := (hmem i).mp (List.mem_append_right _ List.mem_cons_self)
    exact .inr ⟨_, i, hseek, hi, hb, hback i rfl, front, back, hchain, rfl⟩

/-- When one cell at most has `p`, the search finds that cell. -/
theorem Buckets.seek_of_mem (h : Buckets next head cells place) {p : ι → Bool} {i : ι}
    (hi : i ∈ cells) (hp : p i = true) (hone : ∀ j ∈ cells, p j = true → j = i)
    {fuel : Nat} (hfuel : cells.card ≤ fuel) :
    ∃ prev, seek next p fuel none (head (place i)) = some (prev, some i) ∧
      Behind next (head (place i)) prev i := by
  rcases h.seek_spec p (place i) hfuel with ⟨prev, -, hno⟩ | ⟨prev, j, hseek, hj, -, hpj, hbeh⟩
  · rw [hno i hi rfl] at hp
    cases hp
  · rw [hone j hj hpj] at hseek hbeh
    exact ⟨prev, hseek, hbeh⟩

/-- The links of cells in no list, and their places, may change. -/
theorem Buckets.congr (h : Buckets next head cells place) {next' : ι → Option ι}
    {place' : ι → κ} (hnext : ∀ i ∈ cells, next' i = next i)
    (hplace : ∀ i ∈ cells, place' i = place i) : Buckets next' head cells place' := by
  refine ⟨fun b => ?_⟩
  obtain ⟨l, hchain, hmem⟩ := h.chain b
  refine ⟨l, hchain.congr fun i hi => hnext i ((hmem i).mp hi).1, fun i => ?_⟩
  rw [hmem]
  exact and_congr_right fun hi => by rw [hplace i hi]

variable [DecidableEq ι] [DecidableEq κ]

/-- **A cell that is in no list goes to the front of its own.** -/
theorem Buckets.push (h : Buckets next head cells place) {i : ι} (hi : i ∉ cells) {b : κ}
    (hb : place i = b) :
    Buckets (Function.update next i (head b)) (Function.update head b (some i))
      (insert i cells) place := by
  refine ⟨fun c => ?_⟩
  obtain ⟨l, hchain, hmem⟩ := h.chain c
  have hil : i ∉ l := fun hin => hi ((hmem i).mp hin).1
  by_cases hc : c = b
  · rw [← hc, Function.update_self]
    refine ⟨i :: l, hchain.push hil, fun j => ?_⟩
    rw [List.mem_cons, hmem, Finset.mem_insert, or_and_right]
    exact or_congr_left (iff_self_and.mpr fun hj => by rw [hj, hb, hc])
  · rw [Function.update_of_ne hc]
    refine ⟨l, hchain.congr fun j hj => Function.update_of_ne ?_ _ _, fun j => ?_⟩
    · exact fun heq => hil (heq ▸ hj)
    · rw [hmem, Finset.mem_insert, or_and_right, or_iff_right]
      exact fun hj => hc (by rw [← hj.2, hj.1, hb])

/-- A list loses a cell, the others stay. -/
theorem Buckets.without (h : Buckets next head cells place) {i : ι}
    {front back : List ι} (hbeh : Chain next (head (place i)) (front ++ i :: back))
    {next' : ι → Option ι} {head' : κ → Option ι}
    (hown : Chain next' (head' (place i)) (front ++ back))
    (hnext : ∀ j, place j ≠ place i → next' j = next j)
    (hhead : ∀ c, c ≠ place i → head' c = head c) :
    Buckets next' head' (cells.erase i) place := by
  refine ⟨fun c => ?_⟩
  obtain ⟨l, hchain, hmem⟩ := h.chain c
  by_cases hc : c = place i
  · subst hc
    rw [hchain.unique hbeh] at hmem
    refine ⟨front ++ back, hown, fun j => ?_⟩
    have hnot : i ∉ front ++ back := (List.nodup_middle.mp hbeh.nodup).notMem
    rw [Finset.mem_erase, and_assoc, ← hmem]
    simp only [List.mem_append, List.mem_cons] at hnot ⊢
    constructor
    · intro hj
      exact ⟨fun heq => hnot (heq ▸ hj), hj.imp_right Or.inr⟩
    · rintro ⟨hne, hj⟩
      exact hj.imp_right fun hj => hj.resolve_left hne
  · rw [hhead c hc]
    refine ⟨l, hchain.congr fun j hj => ?_, fun j => ?_⟩
    · obtain ⟨-, hp⟩ := (hmem j).mp hj
      exact hnext j (hp ▸ hc)
    · rw [hmem, Finset.mem_erase, and_assoc, iff_and_self]
      exact fun hj heq => hc (by rw [← hj.2, heq])

/-- A cell behind another is taken out. -/
theorem Buckets.unlink (h : Buckets next head cells place) {i q : ι}
    (hbeh : Behind next (head (place i)) (some q) i) :
    Buckets (Function.update next q (next i)) head (cells.erase i) place := by
  obtain ⟨front, back, hchain, hq⟩ := hbeh
  obtain ⟨l, hl, hmem⟩ := h.chain (place i)
  have hplace : place q = place i := by
    refine ((hmem q).mp ?_).2
    rw [hl.unique hchain]
    exact List.mem_append_left _ (List.mem_of_getLast? hq)
  refine h.without hchain (hchain.unlink hq) (fun j hj => ?_) fun c _ => rfl
  refine Function.update_of_ne (fun heq => hj ?_) _ _
  rw [heq, hplace]

/-- The first cell of a list is taken out. -/
theorem Buckets.behead (h : Buckets next head cells place) {i : ι}
    (hbeh : Behind next (head (place i)) none i) :
    Buckets next (Function.update head (place i) (next i)) (cells.erase i) place := by
  obtain ⟨front, back, hchain, hnone⟩ := hbeh
  obtain rfl : front = [] := List.getLast?_eq_none_iff.mp hnone
  refine h.without hchain ?_ (fun _ _ => rfl) fun c hc => Function.update_of_ne hc _ _
  rw [Function.update_self]
  have hstart := hchain.start
  rw [hstart] at hchain
  exact hchain.tail

end Autocom.Lib.Chains
