import Autocom.SQTable
import Mathlib.Data.Finset.Card
import Mathlib.Algebra.Group.Nat.Even

/-! # One insertion into a `SQTable`

What a node array must be for lookups to be right, and what `NewSlot` does to it
before it rehashes: three ways to place a key, then the search for a free place. -/
namespace Autocom.Squirrel
open Autocom.Lib.Links Autocom.Lib.Scatter

namespace SQTable

/-! ## Reading what was written -/

section
variable (t : SQTable) (i : Nat)

theorem nodes_setNode (n : HashNode) : (t.setNode i n).nodes = Function.update t.nodes i n := rfl

/-- A field of the nodes, read as a function of the index. -/
theorem field_setNode {α : Type} (f : HashNode → α) (n : HashNode) :
    (fun j => f ((t.setNode i n).nodes j)) = Function.update (fun j => f (t.nodes j)) i (f n) := by
  funext j
  by_cases h : j = i
  · rw [h, nodes_setNode, Function.update_self, Function.update_self]
  · rw [nodes_setNode, Function.update_of_ne h, Function.update_of_ne h]

@[simp] theorem key_setNode (n : HashNode) :
    (t.setNode i n).key = Function.update t.key i n.key := field_setNode t i HashNode.key n

@[simp] theorem val_setNode (n : HashNode) :
    (t.setNode i n).val = Function.update t.val i n.val := field_setNode t i HashNode.val n

@[simp] theorem next_setNode (n : HashNode) :
    (t.setNode i n).next = Function.update t.next i n.next := field_setNode t i HashNode.next n

@[simp] theorem key_setKey (k : SQObjectPtr) :
    (t.setKey i k).key = Function.update t.key i k := key_setNode t i _

@[simp] theorem val_setKey (k : SQObjectPtr) : (t.setKey i k).val = t.val := by
  rw [setKey, val_setNode]
  exact Function.update_eq_self i t.val

@[simp] theorem next_setKey (k : SQObjectPtr) : (t.setKey i k).next = t.next := by
  rw [setKey, next_setNode]
  exact Function.update_eq_self i t.next

@[simp] theorem key_setVal (v : SQObjectPtr) : (t.setVal i v).key = t.key := by
  rw [setVal, key_setNode]
  exact Function.update_eq_self i t.key

@[simp] theorem val_setVal (v : SQObjectPtr) :
    (t.setVal i v).val = Function.update t.val i v := val_setNode t i _

@[simp] theorem next_setVal (v : SQObjectPtr) : (t.setVal i v).next = t.next := by
  rw [setVal, next_setNode]
  exact Function.update_eq_self i t.next

@[simp] theorem key_setNext (n : Option Nat) : (t.setNext i n).key = t.key := by
  rw [setNext, key_setNode]
  exact Function.update_eq_self i t.key

@[simp] theorem val_setNext (n : Option Nat) : (t.setNext i n).val = t.val := by
  rw [setNext, val_setNode]
  exact Function.update_eq_self i t.val

@[simp] theorem next_setNext (n : Option Nat) :
    (t.setNext i n).next = Function.update t.next i n := next_setNode t i _

end

/-! ## The invariant -/

/-- The main position of a key. -/
abbrev home (heap : Heap) (t : SQTable) (k : SQObject) : Nat :=
  mainPosition heap t.numofnodes (some k)

/-- The nodes in use. -/
def used (t : SQTable) : Finset Nat := (Finset.range t.numofnodes).filter fun i => t.key i ≠ none

/-- The slots of the table. -/
def Holds (t : SQTable) (k : SQObject) (v : SQObjectPtr) : Prop :=
  ∃ i, t.key i = some k ∧ t.val i = v

/-- The parts of the invariant that hold in the middle of `NewSlot` as well. -/
structure Filed (heap : Heap) (t : SQTable) : Prop where
  size : ∃ e, t.numofnodes = 2 ^ (e + 2)
  layout : Layout (t.home heap) t.key t.next
  inside : ∀ i k, t.key i = some k → i < t.numofnodes
  closed : ∀ i j, t.next i = some j → j < t.numofnodes

structure Inv (heap : Heap) (t : SQTable) : Prop extends Filed heap t where
  firstfree_lt : t.firstfree < t.numofnodes
  free : t.key t.firstfree = none ∧ t.next t.firstfree = none
  above : ∀ i j, t.next i = some j → t.firstfree < j
  count : t.usednodes = t.used.card

theorem Filed.four_le {heap : Heap} {t : SQTable} (h : Filed heap t) : 4 ≤ t.numofnodes := by
  obtain ⟨e, he⟩ := h.size
  rw [he, Nat.pow_add]
  exact Nat.le_mul_of_pos_left 4 (Nat.two_pow_pos e)

theorem Filed.home_lt {heap : Heap} {t : SQTable} (h : Filed heap t) (k : SQObject) :
    t.home heap k < t.numofnodes :=
  mainPosition_lt heap (Nat.lt_of_lt_of_le (Nat.succ_pos 3) h.four_le) _

theorem Inv.unlinked {heap : Heap} {t : SQTable} (h : Inv heap t) : Unlinked t.next t.firstfree :=
  ⟨h.free.2, fun i hi => Nat.lt_irrefl _ (h.above i _ hi)⟩

theorem mem_used {t : SQTable} {i : Nat} : i ∈ t.used ↔ i < t.numofnodes ∧ t.key i ≠ none := by
  rw [used, Finset.mem_filter, Finset.mem_range]

/-- `_Get` of a key that is not null. -/
theorem Filed.get_spec {heap : Heap} {t : SQTable} (h : Filed heap t) (k : SQObject) :
    ∃ r, t._Get heap (some k) = some r ∧ ∀ i, r = some i ↔ t.key i = some k := by
  have hclosed : ∀ i j, t.next i = some j → j ∈ List.range t.numofnodes := fun i j hij =>
    List.mem_range.mpr (h.closed i j hij)
  have hs := h.layout.search_iff hclosed k (List.mem_range.mpr (h.home_lt k))
  rwa [List.length_range] at hs

/-! ## Placing a key -/

/-- The three ways in which `place` files a key that is not there. -/
inductive Placed (heap : Heap) (t : SQTable) (k : SQObject) (t' : SQTable) : Nat → Prop
  | home (hfree : t.key (t.home heap k) = none)
    (hkey : t'.key = Function.update t.key (t.home heap k) (some k))
    (hnext : t'.next = t.next) (hval : t'.val = t.val) : Placed heap t k t' (t.home heap k)
  | behind (k₀ : SQObject) (hhome : t.key (t.home heap k) = some k₀)
    (hk₀ : t.home heap k₀ = t.home heap k)
    (hkey : t'.key = Function.update t.key t.firstfree (some k))
    (hnext : t'.next = insertAfter t.next (t.home heap k) t.firstfree) (hval : t'.val = t.val) :
    Placed heap t k t' t.firstfree
  | moving (k₀ : SQObject) (b : Nat) (hhome : t.key (t.home heap k) = some k₀)
    (hk₀ : t.home heap k₀ ≠ t.home heap k) (hb : t.next b = some (t.home heap k))
    (hkey : t'.key =
      Function.update (Function.update t.key t.firstfree (some k₀)) (t.home heap k) (some k))
    (hnext : t'.next = replace t.next b (t.home heap k) t.firstfree)
    (hval : t'.val = Function.update
      (Function.update t.val t.firstfree (t.val (t.home heap k))) (t.home heap k) none) :
    Placed heap t k t' (t.home heap k)

/-- The node before a foreign key is found. -/
theorem Inv.findPrevious_spec {heap : Heap} {t : SQTable} (h : Inv heap t) {k₀ : SQObject}
    {i : Nat} (hi : t.key i = some k₀) (hne : t.home heap k₀ ≠ i) :
    ∃ b, t.findPrevious (t.home heap k₀) i = some b ∧ t.next b = some i := by
  have hclosed : ∀ i j, t.next i = some j → j ∈ List.range t.numofnodes := fun i j hij =>
    List.mem_range.mpr (h.closed i j hij)
  obtain ⟨r, hr⟩ := search_ends h.layout.acyclic hclosed (List.mem_range.mpr (h.home_lt k₀))
    fun j => t.next j == some i
  rw [List.length_range] at hr
  obtain ⟨b, hreach, hb⟩ := h.layout.linked hi hne
  cases r with
  | none =>
    have hmiss := search_missed hr hreach
    rw [hb, beq_self_eq_true] at hmiss
    cases hmiss
  | some b' =>
    refine ⟨b', ?_, eq_of_beq (search_found hr).2⟩
    rw [findPrevious, hr]
    rfl

theorem Inv.place_spec {heap : Heap} {t : SQTable} (h : Inv heap t) (k : SQObject) :
    ∃ t' mp, t.place heap k = some (t', mp) ∧ Placed heap t k t' mp ∧
      t'.firstfree = t.firstfree ∧ t'.numofnodes = t.numofnodes ∧ t'.usednodes = t.usednodes := by
  simp only [place]
  split
  · next hfree =>
    exact ⟨_, _, rfl, .home hfree (key_setKey ..) (next_setKey ..) (val_setKey ..), rfl, rfl, rfl⟩
  · next k₀ hhome =>
    by_cases hmove : t.home heap k > t.firstfree ∧ t.home heap k₀ ≠ t.home heap k
    · obtain ⟨b, hprev, hb⟩ := h.findPrevious_spec hhome hmove.2
      have hbne : t.home heap k ≠ b := (h.layout.acyclic.ne hb).symm
      rw [if_pos hmove, hprev, Option.map_some]
      refine ⟨_, _, rfl, .moving k₀ b hhome hmove.2 hb ?_ ?_ ?_, rfl, rfl, rfl⟩
      · simp [HashNode.null, hhome]
      · simp [HashNode.null, replace, Function.update_of_ne hbne]
      · simp [HashNode.null]
    · rw [if_neg hmove]
      have hk₀ : t.home heap k₀ = t.home heap k := by
        by_contra hne
        obtain ⟨b, -, hb⟩ := h.layout.linked hhome hne
        exact hmove ⟨h.above b _ hb, hne⟩
      refine ⟨_, _, rfl, .behind k₀ hhome hk₀ ?_ ?_ ?_, rfl, rfl, rfl⟩
      · simp
      · simp [insertAfter]
      · simp

/-! ## What a placed key does to the table -/

section
variable {heap : Heap} {t t' : SQTable} {k : SQObject} {mp : Nat}

theorem Placed.layout (hp : Placed heap t k t' mp) (h : Inv heap t)
    (habsent : ∀ i, t.key i ≠ some k) : Layout (t.home heap) t'.key t'.next := by
  cases hp with
  | home hfree hkey hnext hval =>
    rw [hkey, hnext]
    exact h.layout.insert_home habsent hfree
  | behind k₀ hhome hk₀ hkey hnext hval =>
    rw [hkey, hnext]
    exact h.layout.insert_behind habsent hhome hk₀ h.unlinked h.free.1
  | moving k₀ b hhome hk₀ hb hkey hnext hval =>
    rw [hkey, hnext]
    exact h.layout.insert_moving habsent hhome hk₀ hb h.unlinked h.free.1

/-- The key is in its node. -/
theorem Placed.key_mp (hp : Placed heap t k t' mp) : t'.key mp = some k := by
  cases hp with
  | home _ hkey => rw [hkey, Function.update_self]
  | behind _ _ _ hkey => rw [hkey, Function.update_self]
  | moving _ _ _ _ _ hkey => rw [hkey, Function.update_self]

/-- One more node is in use. -/
theorem Placed.used (hp : Placed heap t k t' mp) (h : Inv heap t)
    (hn : t'.numofnodes = t.numofnodes) : t'.used.card = t.used.card + 1 := by
  have hone : ∀ i, t.key i = none → i < t.numofnodes →
      (∀ j, t'.key j ≠ none ↔ j = i ∨ t.key j ≠ none) → t'.used.card = t.used.card + 1 := by
    intro i hi hlt hiff
    have hused : t'.used = insert i t.used := by
      ext j
      rw [Finset.mem_insert, mem_used, mem_used, hn, hiff]
      constructor
      · intro ⟨hj, hor⟩
        exact hor.imp id fun hkey => ⟨hj, hkey⟩
      · intro hor
        rcases hor with rfl | ⟨hj, hkey⟩
        · exact ⟨hlt, .inl rfl⟩
        · exact ⟨hj, .inr hkey⟩
    rw [hused, Finset.card_insert_of_notMem fun hmem => (mem_used.mp hmem).2 hi]
  have hupdate : ∀ (i : Nat) (k' : SQObject) (key : Nat → SQObjectPtr) (j : Nat),
      Function.update key i (some k') j ≠ none ↔ j = i ∨ key j ≠ none := by
    intro i k' key j
    by_cases hj : j = i
    · rw [hj, Function.update_self]
      exact iff_of_true (Option.some_ne_none _) (.inl rfl)
    · rw [Function.update_of_ne hj]
      exact (or_iff_right hj).symm
  cases hp with
  | home hfree hkey hnext hval =>
    refine hone _ hfree (h.home_lt k) fun j => ?_
    rw [hkey, hupdate]
  | behind k₀ hhome hk₀ hkey hnext hval =>
    refine hone _ h.free.1 h.firstfree_lt fun j => ?_
    rw [hkey, hupdate]
  | moving k₀ b hhome hk₀ hb hkey hnext hval =>
    refine hone _ h.free.1 h.firstfree_lt fun j => ?_
    rw [hkey, hupdate, hupdate, or_iff_right_of_imp]
    intro hj
    rw [hj, hhome]
    exact .inr (Option.some_ne_none _)

/-- The other slots are what they were. -/
theorem Placed.holds (hp : Placed heap t k t' mp) (h : Inv heap t) {k' : SQObject}
    (hne : k' ≠ k) (v : SQObjectPtr) : t'.Holds k' v ↔ t.Holds k' v := by
  have hsome : ∀ {i : Nat}, t.key i = some k' → i ≠ t.firstfree := by
    intro i hi heq
    rw [heq, h.free.1] at hi
    cases hi
  have hk : some k ≠ some k' := fun heq => hne (Option.some.inj heq).symm
  cases hp with
  | home hfree hkey hnext hval =>
    rw [Holds, Holds, hkey, hval]
    refine exists_congr fun i => and_congr_left fun _ => ?_
    by_cases hi : i = t.home heap k
    · rw [hi, Function.update_self, hfree]
      exact iff_of_false hk nofun
    · rw [Function.update_of_ne hi]
  | behind k₀ hhome hk₀ hkey hnext hval =>
    rw [Holds, Holds, hkey, hval]
    refine exists_congr fun i => and_congr_left fun _ => ?_
    by_cases hi : i = t.firstfree
    · rw [hi, Function.update_self, h.free.1]
      exact iff_of_false hk nofun
    · rw [Function.update_of_ne hi]
  | moving k₀ b hhome hk₀ hb hkey hnext hval =>
    have hff : t.firstfree ≠ t.home heap k := by
      intro heq
      rw [← heq, h.free.1] at hhome
      cases hhome
    rw [Holds, Holds, hkey, hval]
    constructor
    · intro ⟨i, hi, hv⟩
      by_cases hih : i = t.home heap k
      · rw [hih, Function.update_self] at hi
        exact absurd hi hk
      · rw [Function.update_of_ne hih] at hi hv
        by_cases hif : i = t.firstfree
        · rw [hif, Function.update_self] at hi hv
          exact ⟨_, hhome.trans hi, hv⟩
        · rw [Function.update_of_ne hif] at hi hv
          exact ⟨i, hi, hv⟩
    · intro ⟨i, hi, hv⟩
      by_cases hih : i = t.home heap k
      · refine ⟨t.firstfree, ?_, ?_⟩
        · rw [Function.update_of_ne hff, Function.update_self, ← hhome, ← hih, hi]
        · rw [Function.update_of_ne hff, Function.update_self, ← hih, hv]
      · refine ⟨i, ?_, ?_⟩
        · rw [Function.update_of_ne hih, Function.update_of_ne (hsome hi), hi]
        · rw [Function.update_of_ne hih, Function.update_of_ne (hsome hi), hv]

/-- Links lead above `_firstfree`, or to it once it is in use. -/
theorem Placed.links (hp : Placed heap t k t' mp) (h : Inv heap t) {i j : Nat}
    (hij : t'.next i = some j) :
    j < t.numofnodes ∧ (t.firstfree < j ∨ (j = t.firstfree ∧ t'.key t.firstfree ≠ none)) := by
  have hold : ∀ {i j}, t.next i = some j →
      j < t.numofnodes ∧ (t.firstfree < j ∨ (j = t.firstfree ∧ t'.key t.firstfree ≠ none)) :=
    fun hx => ⟨h.closed _ _ hx, .inl (h.above _ _ hx)⟩
  cases hp with
  | home hfree hkey hnext hval =>
    rw [hnext] at hij
    exact hold hij
  | behind k₀ hhome hk₀ hkey hnext hval =>
    have hne : t.home heap k ≠ t.firstfree := by
      intro heq
      rw [heq, h.free.1] at hhome
      cases hhome
    rw [hnext] at hij
    rcases insertAfter_link hne hij with ⟨-, rfl⟩ | ⟨-, hx⟩ | ⟨-, -, hx⟩
    · refine ⟨h.firstfree_lt, .inr ⟨rfl, ?_⟩⟩
      rw [hkey, Function.update_self]
      exact Option.some_ne_none _
    · exact hold hx
    · exact hold hx
  | moving k₀ b hhome hk₀ hb hkey hnext hval =>
    have hne : t.firstfree ≠ t.home heap k := by
      intro heq
      rw [← heq, h.free.1] at hhome
      cases hhome
    rw [hnext] at hij
    rcases replace_link ⟨hb, h.unlinked, hne, h.layout.acyclic, h.layout.oneIn⟩ hij with
      ⟨-, rfl⟩ | ⟨-, hx⟩ | ⟨-, -, -, hx⟩
    · refine ⟨h.firstfree_lt, .inr ⟨rfl, ?_⟩⟩
      rw [hkey, Function.update_of_ne hne, Function.update_self]
      exact Option.some_ne_none _
    · exact hold hx
    · exact hold hx

/-- No node is given up. -/
theorem Placed.keeps (hp : Placed heap t k t' mp) {i : Nat} (hi : t.key i ≠ none) :
    t'.key i ≠ none := by
  have hupdate : ∀ (key : Nat → SQObjectPtr) (j : Nat) (k' : SQObject), key i ≠ none →
      Function.update key j (some k') i ≠ none := by
    intro key j k' hkey
    by_cases hij : i = j
    · rw [hij, Function.update_self]
      exact Option.some_ne_none _
    · rwa [Function.update_of_ne hij]
  cases hp with
  | home _ hkey => rw [hkey]; exact hupdate _ _ _ hi
  | behind _ _ _ hkey => rw [hkey]; exact hupdate _ _ _ hi
  | moving _ _ _ _ _ hkey => rw [hkey]; exact hupdate _ _ _ (hupdate _ _ _ hi)

theorem Placed.inside (hp : Placed heap t k t' mp) (h : Inv heap t) {i : Nat} {k' : SQObject}
    (hi : t'.key i = some k') : i < t.numofnodes := by
  by_cases hh : i = t.home heap k
  · rw [hh]; exact h.home_lt k
  · by_cases hf : i = t.firstfree
    · rw [hf]; exact h.firstfree_lt
    · refine h.inside i k' ?_
      cases hp with
      | home _ hkey => rwa [hkey, Function.update_of_ne hh] at hi
      | behind _ _ _ hkey => rwa [hkey, Function.update_of_ne hf] at hi
      | moving _ _ _ _ _ hkey =>
        rwa [hkey, Function.update_of_ne hh, Function.update_of_ne hf] at hi

theorem Placed.filed (hp : Placed heap t k t' mp) (h : Inv heap t)
    (habsent : ∀ i, t.key i ≠ some k) (hn : t'.numofnodes = t.numofnodes) : Filed heap t' where
  size := by rw [hn]; exact h.size
  layout := by
    have hhome : t'.home heap = t.home heap := by
      funext k'
      rw [SQTable.home, SQTable.home, hn]
    rw [hhome]
    exact hp.layout h habsent
  inside i k' hi := by rw [hn]; exact hp.inside h hi
  closed i j hij := by rw [hn]; exact (hp.links h hij).1

end

/-! ## The table before the rehash -/

/-- No key has been removed since the nodes were allocated: a node without a key
has no link, and all nodes above `_firstfree` are in use. -/
structure Packed (t : SQTable) : Prop where
  bare : ∀ i, t.key i = none → t.next i = none
  above : ∀ i, t.firstfree < i → i < t.numofnodes → t.key i ≠ none

theorem Placed.bare {heap : Heap} {t t' : SQTable} {k : SQObject} {mp : Nat}
    (hp : Placed heap t k t' mp) (ht : t.Packed) {i : Nat} (hi : t'.key i = none) :
    t'.next i = none := by
  have hold : t.key i = none := by
    by_contra hne
    exact hp.keeps hne hi
  cases hp with
  | home hfree hkey hnext hval => rw [hnext]; exact ht.bare i hold
  | behind k₀ hhome hk₀ hkey hnext hval =>
    have hih : i ≠ t.home heap k := by
      intro heq
      rw [heq, hhome] at hold
      cases hold
    have hif : i ≠ t.firstfree := by
      intro heq
      rw [hkey, heq, Function.update_self] at hi
      cases hi
    rw [hnext, insertAfter_other hih hif]
    exact ht.bare i hold
  | moving k₀ b hhome hk₀ hb hkey hnext hval =>
    have hih : i ≠ t.home heap k := by
      intro heq
      rw [heq, hhome] at hold
      cases hold
    have hif : i ≠ t.firstfree := by
      intro heq
      rw [hkey, Function.update_of_ne hih, heq, Function.update_self] at hi
      cases hi
    have hib : i ≠ b := by
      intro heq
      rw [← heq, ht.bare i hold] at hb
      cases hb
    rw [hnext, replace_other hih hif hib]
    exact ht.bare i hold

theorem correctFirstfree_spec (nodes : Nat → HashNode) (i : Nat) :
    (∃ j ≤ i, correctFirstfree nodes i = (j, true) ∧
        ((nodes j).key = none ∧ (nodes j).next = none) ∧
        ∀ x ≤ i, j < x → ¬ ((nodes x).key = none ∧ (nodes x).next = none)) ∨
      (correctFirstfree nodes i = (0, false) ∧
        ∀ x ≤ i, ¬ ((nodes x).key = none ∧ (nodes x).next = none)) := by
  induction i with
  | zero =>
    rw [correctFirstfree]
    by_cases hfree : (nodes 0).key = none ∧ (nodes 0).next = none
    · rw [decide_eq_true hfree]
      exact .inl ⟨0, le_rfl, rfl, hfree, fun x hx hlt => absurd hlt (Nat.not_lt.mpr hx)⟩
    · rw [decide_eq_false hfree]
      refine .inr ⟨rfl, fun x hx => ?_⟩
      rwa [Nat.le_zero.mp hx]
  | succ i ih =>
    rw [correctFirstfree]
    by_cases hfree : (nodes (i + 1)).key = none ∧ (nodes (i + 1)).next = none
    · rw [if_pos hfree]
      exact .inl ⟨i + 1, le_rfl, rfl, hfree, fun x hx hlt => absurd hlt (Nat.not_lt.mpr hx)⟩
    · rw [if_neg hfree]
      have hlast : ∀ {P : Nat → Prop}, (∀ x ≤ i, P x →
          ¬ ((nodes x).key = none ∧ (nodes x).next = none)) → ∀ x ≤ i + 1, P x →
          ¬ ((nodes x).key = none ∧ (nodes x).next = none) := by
        intro P hall x hx hP
        rcases Nat.le_succ_iff.mp hx with hle | rfl
        · exact hall x hle hP
        · exact hfree
      rcases ih with ⟨j, hj, heq, hfj, hall⟩ | ⟨heq, hall⟩
      · exact .inl ⟨j, hj.trans (Nat.le_succ i), heq, hfj, hlast hall⟩
      · have hnone := hlast (P := fun _ => True) fun x hx _ => hall x hx
        exact .inr ⟨heq, fun x hx => hnone x hx trivial⟩

/-- A slot has been made. -/
structure Made (heap : Heap) (t : SQTable) (k : SQObject) (v : SQObjectPtr) (t' : SQTable) :
    Prop where
  inv : Inv heap t'
  size : t'.numofnodes = t.numofnodes
  usednodes : t'.usednodes = t.usednodes + 1
  holds : ∀ k' v', t'.Holds k' v' ↔ (k' = k ∧ v' = v) ∨ (k' ≠ k ∧ t.Holds k' v')
  packed : t.Packed → t'.Packed

/-- The key is there, with whatever its node held, and no place is free. -/
structure Full (heap : Heap) (t : SQTable) (k : SQObject) (t' : SQTable) : Prop where
  filed : Filed heap t'
  size : t'.numofnodes = t.numofnodes
  usednodes : t'.usednodes = t.usednodes
  used : t'.used.card = t.usednodes + 1
  stored : ∃ v, t'.Holds k v
  holds : ∀ k' v', k' ≠ k → (t'.Holds k' v' ↔ t.Holds k' v')
  packed : t.Packed → t'.used.card = t.numofnodes

/-- Setting the value of a slot. -/
theorem holds_setVal {heap : Heap} {t : SQTable} (h : Filed heap t) {i : Nat} {k : SQObject}
    (hi : t.key i = some k) (v : SQObjectPtr) (k' : SQObject) (v' : SQObjectPtr) :
    (t.setVal i v).Holds k' v' ↔ (k' = k ∧ v' = v) ∨ (k' ≠ k ∧ t.Holds k' v') := by
  rw [Holds, Holds, key_setVal, val_setVal]
  by_cases hk : k' = k
  · subst hk
    rw [and_iff_right rfl, or_iff_left fun hne => hne.1 rfl]
    constructor
    · intro ⟨j, hj, hv⟩
      rw [h.layout.unique j i k' hj hi, Function.update_self] at hv
      exact hv.symm
    · intro hv
      exact ⟨i, hi, by rw [Function.update_self, hv]⟩
  · rw [or_iff_right fun heq => hk heq.1, and_iff_right hk]
    refine exists_congr fun j => and_congr_right fun hj => ?_
    have hji : j ≠ i := by
      intro heq
      rw [heq, hi] at hj
      exact hk (Option.some.inj hj).symm
    rw [Function.update_of_ne hji]

section
variable {heap : Heap} {t t' : SQTable} {k : SQObject} {mp : Nat}

/-- The table after the search for a free place. -/
theorem Placed.made (hp : Placed heap t k t' mp) (h : Inv heap t)
    (habsent : ∀ i, t.key i ≠ some k) (hn : t'.numofnodes = t.numofnodes)
    (hu : t'.usednodes = t.usednodes) (val : SQObjectPtr) {j : Nat} (hj : j ≤ t.firstfree)
    (hfree : t'.key j = none ∧ t'.next j = none)
    (hpassed : ∀ x ≤ t.firstfree, j < x → ¬ (t'.key x = none ∧ t'.next x = none)) :
    Made heap t k val
      { t'.setVal mp val with firstfree := j, usednodes := t'.usednodes + 1 } := by
  have hfiled := hp.filed h habsent hn
  set u : SQTable := { t'.setVal mp val with firstfree := j, usednodes := t'.usednodes + 1 }
  have hkey : u.key = t'.key := key_setVal t' mp val
  have hnext : u.next = t'.next := next_setVal t' mp val
  have hused : u.used = t'.used := by rw [SQTable.used, SQTable.used, hkey]; rfl
  have hfiled' : Filed heap u := by
    refine ⟨hfiled.size, ?_, ?_, ?_⟩
    · rw [hkey, hnext]; exact hfiled.layout
    · rw [hkey]; exact hfiled.inside
    · rw [hnext]; exact hfiled.closed
  refine ⟨⟨hfiled', ?_, ?_, fun x y hxy => ?_, ?_⟩, hn, ?_, fun k' v' => ?_, fun ht => ⟨?_, ?_⟩⟩
  · exact Nat.lt_of_le_of_lt hj (hn.symm ▸ h.firstfree_lt)
  · rw [hkey, hnext]; exact hfree
  · rw [hnext] at hxy
    rcases (hp.links h hxy).2 with hlt | ⟨rfl, hne⟩
    · exact Nat.lt_of_le_of_lt hj hlt
    · refine Nat.lt_of_le_of_ne hj fun heq => hne ?_
      rw [← heq]
      exact hfree.1
  · rw [hused, hp.used h hn, ← h.count, ← hu]
  · rw [← hu]
  · have hset := holds_setVal hfiled hp.key_mp val k' v'
    refine hset.trans (or_congr_right (and_congr_right fun hne => ?_))
    exact hp.holds h hne v'
  · intro i hi
    rw [hkey] at hi
    rw [hnext]
    exact hp.bare ht hi
  · intro i hi hlt
    rw [hkey]
    rcases Nat.lt_or_ge t.firstfree i with hff | hff
    · exact hp.keeps (ht.above i hff (hn ▸ hlt))
    · exact fun hnone => hpassed i hff hi ⟨hnone, hp.bare ht hnone⟩

theorem Placed.full (hp : Placed heap t k t' mp) (h : Inv heap t)
    (habsent : ∀ i, t.key i ≠ some k) (hn : t'.numofnodes = t.numofnodes)
    (hu : t'.usednodes = t.usednodes) (j : Nat)
    (hpassed : ∀ x ≤ t.firstfree, ¬ (t'.key x = none ∧ t'.next x = none)) :
    Full heap t k { t' with firstfree := j } := by
  have hfiled := hp.filed h habsent hn
  refine ⟨⟨hfiled.size, hfiled.layout, hfiled.inside, hfiled.closed⟩, hn, hu, ?_,
    ⟨_, mp, hp.key_mp, rfl⟩, fun k' v' hne => hp.holds h hne v', fun ht => ?_⟩
  · exact (hp.used h hn).trans (congrArg (· + 1) h.count.symm)
  · have hall : t'.used = Finset.range t.numofnodes := by
      ext i
      rw [mem_used, Finset.mem_range, hn]
      refine and_iff_left_of_imp fun hi => ?_
      rcases Nat.lt_or_ge t.firstfree i with hff | hff
      · exact hp.keeps (ht.above i hff hi)
      · exact fun hnone => hpassed i hff ⟨hnone, hp.bare ht hnone⟩
    exact (congrArg Finset.card hall).trans (Finset.card_range _)

end

/-- With the key in its node, a place at or below `_firstfree` is free. -/
def FreeLeft (heap : Heap) (t : SQTable) (k : SQObject) : Prop :=
  ∃ t' mp, t.place heap k = some (t', mp) ∧
    ∃ i ≤ t.firstfree, t'.key i = none ∧ t'.next i = none

/-- **What `NewSlot` comes to before it rehashes.** -/
theorem Inv.slot_spec {heap : Heap} {t : SQTable} (h : Inv heap t) (k : SQObject)
    (val : SQObjectPtr) :
    (∃ i, t.key i = some k ∧ t.slot heap k val = some (.found (t.setVal i val))) ∨
      (∀ i, t.key i ≠ some k) ∧
        ((∃ t', t.slot heap k val = some (.made t') ∧ Made heap t k val t' ∧
            t.FreeLeft heap k) ∨
          ∃ t', t.slot heap k val = some (.full t') ∧ Full heap t k t' ∧
            ¬ t.FreeLeft heap k) := by
  obtain ⟨r, hget, hr⟩ := h.get_spec k
  rw [slot, hget]
  cases r with
  | some i => exact .inl ⟨i, (hr i).mp rfl, rfl⟩
  | none =>
    have habsent : ∀ i, t.key i ≠ some k := fun i hi => nomatch (hr i).mpr hi
    obtain ⟨t', mp, hplace, hp, hff, hn, hu⟩ := h.place_spec k
    refine .inr ⟨habsent, ?_⟩
    simp only [Option.bind_eq_bind, Option.bind_some, hplace, hff]
    rcases correctFirstfree_spec t'.nodes t.firstfree with
      ⟨j, hj, heq, hfree, hpassed⟩ | ⟨heq, hpassed⟩
    · rw [heq]
      exact .inl ⟨_, rfl, hp.made h habsent hn hu val hj hfree hpassed, t', mp, hplace, j, hj,
        hfree⟩
    · rw [heq]
      refine .inr ⟨_, rfl, hp.full h habsent hn hu 0 hpassed, fun hleft => ?_⟩
      obtain ⟨u, x, hplace', i, hi, hfree⟩ := hleft
      rw [hplace] at hplace'
      cases hplace'
      exact hpassed i hi hfree

end SQTable

end Autocom.Squirrel
