import Autocom.SQTableSlot
import Mathlib.Tactic.Ring

/-! # `Rehash`, and `NewSlot` with it

The new array has always more nodes than there are keys to put into it, so the
`NewSlot` calls of a `Rehash` never rehash in their turn, and the `NewSlot` that
comes after it finds its key. -/
namespace Autocom.Squirrel
open Autocom.Lib.Links Autocom.Lib.Scatter

namespace SQTable

/-! ## The new array -/

theorem inv_alloc (heap : Heap) (e : Nat) : Inv heap (AllocNodes (2 ^ (e + 2))) where
  size := ⟨e, rfl⟩
  layout := .empty
  inside := nofun
  closed := nofun
  firstfree_lt := Nat.sub_lt (Nat.two_pow_pos _) Nat.one_pos
  free := ⟨rfl, rfl⟩
  above := nofun
  count := by
    refine (Finset.card_eq_zero.mpr ?_).symm
    exact Finset.filter_eq_empty_iff.mpr fun _ _ hne => hne rfl

theorem packed_alloc (e : Nat) : (AllocNodes (2 ^ (e + 2))).Packed where
  bare _ _ := rfl
  above i hi hlt := by
    have hle : i ≤ 2 ^ (e + 2) - 1 := Nat.le_sub_one_of_lt hlt
    exact absurd hi (Nat.not_lt.mpr hle)

theorem used_le (t : SQTable) : t.used.card ≤ t.numofnodes := by
  have hle := Finset.card_filter_le (Finset.range t.numofnodes) fun i => t.key i ≠ none
  rwa [Finset.card_range] at hle

theorem Filed.oldsize {heap : Heap} {t : SQTable} (h : Filed heap t) :
    (if t.numofnodes < 4 then 4 else t.numofnodes) = t.numofnodes :=
  if_neg (Nat.not_lt.mpr h.four_le)

/-- **The new array is larger than what goes into it.** -/
theorem Filed.rehashSize_spec {heap : Heap} {t : SQTable} (h : Filed heap t)
    (hused : t.used.card ≤ t.usednodes + 1) (force : Bool) :
    (t.rehashSize force = none ∧ force = false) ∨
      ∃ e, t.rehashSize force = some (2 ^ (e + 2)) ∧ t.used.card < 2 ^ (e + 2) := by
  obtain ⟨e, he⟩ := h.size
  have hle := t.used_le
  have hfour := h.four_le
  simp only [rehashSize, h.oldsize, CountUsed]
  by_cases hmany : t.usednodes ≥ t.numofnodes - t.numofnodes / 4
  · rw [if_pos hmany]
    have hdouble : t.numofnodes * 2 = 2 ^ (e + 1 + 2) := by rw [he]; ring
    exact .inr ⟨e + 1, by rw [hdouble], by omega⟩
  · rw [if_neg hmany]
    by_cases hfew : t.usednodes ≤ t.numofnodes / 4 ∧ t.numofnodes > MINPOWER2
    · rw [if_pos hfew]
      cases e with
      | zero =>
        obtain ⟨-, hgt⟩ := hfew
        rw [he] at hgt
        exact absurd hgt (Nat.lt_irrefl 4)
      | succ e =>
        have hpos := Nat.two_pow_pos e
        have hn : t.numofnodes = 8 * 2 ^ e := by rw [he]; ring
        have hhalf : 2 ^ (e + 2) = 4 * 2 ^ e := by ring
        exact .inr ⟨e, by rw [hhalf, show t.numofnodes / 2 = 4 * 2 ^ e by omega], by omega⟩
    · rw [if_neg hfew]
      cases force with
      | false => exact .inl ⟨rfl, rfl⟩
      | true => exact .inr ⟨e, by rw [if_pos rfl, he], by omega⟩

/-! ## Filling it -/

/-- A `NewSlot` that files a new key while there is room. -/
def Files (heap : Heap)
    (newSlot : SQTable → SQObject → SQObjectPtr → Option (SQTable × Bool)) : Prop :=
  ∀ t k v, Inv heap t → t.Packed → (∀ i, t.key i ≠ some k) → t.usednodes + 1 < t.numofnodes →
    ∃ t', newSlot t k v = some (t', true) ∧ Made heap t k v t'

/-- The nodes in use among the first `j`. -/
def usedBelow (t : SQTable) (j : Nat) : Nat :=
  ((Finset.range j).filter fun i => t.key i ≠ none).card

theorem usedBelow_succ (t : SQTable) (j : Nat) :
    t.usedBelow (j + 1) = t.usedBelow j + if t.key j = none then 0 else 1 := by
  rw [usedBelow, usedBelow, Finset.range_add_one, Finset.filter_insert]
  by_cases hj : t.key j = none
  · rw [if_neg (not_not.mpr hj), if_pos hj, Nat.add_zero]
  · rw [if_pos hj, if_neg hj, Finset.card_insert_of_notMem]
    exact fun hmem => absurd (Finset.mem_range.mp (Finset.mem_filter.mp hmem).1) (Nat.lt_irrefl j)

theorem usedBelow_le (t : SQTable) {i j : Nat} (hij : i ≤ j) : t.usedBelow i ≤ t.usedBelow j :=
  Finset.card_le_card (Finset.filter_subset_filter _ (Finset.range_subset_range.mpr hij))

/-- The new table after the first `j` nodes of the old one. -/
structure Refilled (heap : Heap) (t : SQTable) (size j : Nat) (nt : SQTable) : Prop where
  inv : Inv heap nt
  packed : nt.Packed
  size : nt.numofnodes = size
  usednodes : nt.usednodes = t.usedBelow j
  holds : ∀ k v, nt.Holds k v ↔ ∃ i < j, t.key i = some k ∧ t.val i = v

theorem Refilled.absent {heap : Heap} {t nt : SQTable} {size j : Nat} {k : SQObject}
    (hn : Refilled heap t size j nt) (h : Filed heap t) (hj : t.key j = some k) (i : Nat) :
    nt.key i ≠ some k := by
  intro hi
  obtain ⟨x, hx, hkey, -⟩ := (hn.holds k (nt.val i)).mp ⟨i, hi, rfl⟩
  rw [h.layout.unique x j k hkey hj] at hx
  exact Nat.lt_irrefl j hx

theorem Refilled.step {heap : Heap} {t nt nt' : SQTable} {size j : Nat} {k : SQObject}
    (hn : Refilled heap t size j nt) (h : Filed heap t) (hj : t.key j = some k)
    (hm : Made heap nt k (t.val j) nt') : Refilled heap t size (j + 1) nt' where
  inv := hm.inv
  packed := hm.packed hn.packed
  size := hm.size.trans hn.size
  usednodes := by
    have hne : t.key j ≠ none := by
      rw [hj]
      exact Option.some_ne_none k
    rw [hm.usednodes, hn.usednodes, usedBelow_succ, if_neg hne]
  holds k' v' := by
    rw [hm.holds]
    constructor
    · intro hor
      rcases hor with ⟨rfl, rfl⟩ | ⟨-, hold⟩
      · exact ⟨j, Nat.lt_succ_self j, hj, rfl⟩
      · obtain ⟨i, hi, hkey, hval⟩ := (hn.holds k' v').mp hold
        exact ⟨i, Nat.lt_succ_of_lt hi, hkey, hval⟩
    · intro ⟨i, hi, hkey, hval⟩
      rcases Nat.lt_succ_iff_lt_or_eq.mp hi with hlt | rfl
      · refine .inr ⟨fun heq => ?_, (hn.holds k' v').mpr ⟨i, hlt, hkey, hval⟩⟩
        rw [heq] at hkey
        exact absurd (h.layout.unique i j k hkey hj) (Nat.ne_of_lt hlt)
      · rw [hj] at hkey
        exact .inl ⟨(Option.some.inj hkey).symm, hval.symm⟩

theorem Filed.refill {heap : Heap} {t : SQTable} (h : Filed heap t)
    {newSlot : SQTable → SQObject → SQObjectPtr → Option (SQTable × Bool)}
    (hfiles : Files heap newSlot) (e : Nat) (hroom : t.used.card < 2 ^ (e + 2)) (j : Nat)
    (hj : j ≤ t.numofnodes) :
    ∃ nt, (List.range j).foldlM (fun nt i =>
        match t.key i with
        | none => some nt
        | some key => (newSlot nt key (t.val i)).map Prod.fst)
        (AllocNodes (2 ^ (e + 2))) = some nt ∧
      Refilled heap t (2 ^ (e + 2)) j nt := by
  induction j with
  | zero =>
    refine ⟨_, rfl, inv_alloc heap e, packed_alloc e, rfl, rfl, fun k v => ?_⟩
    refine iff_of_false ?_ ?_
    · intro ⟨i, hi, _⟩; cases hi
    · intro ⟨i, hi, _⟩; cases hi
  | succ j ih =>
    obtain ⟨nt, hfold, hn⟩ := ih (Nat.le_of_succ_le hj)
    rw [List.range_succ, List.foldlM_append, hfold]
    simp only [Option.bind_eq_bind, Option.bind_some, List.foldlM_cons, List.foldlM_nil]
    cases hkey : t.key j with
    | none =>
      refine ⟨nt, rfl, hn.inv, hn.packed, hn.size, ?_, fun k v => ?_⟩
      · rw [hn.usednodes, usedBelow_succ, if_pos hkey, Nat.add_zero]
      · rw [hn.holds]
        constructor
        · intro ⟨i, hi, hrest⟩
          exact ⟨i, Nat.lt_succ_of_lt hi, hrest⟩
        · intro ⟨i, hi, hik, hv⟩
          refine ⟨i, Nat.lt_of_le_of_ne (Nat.le_of_lt_succ hi) fun heq => ?_, hik, hv⟩
          rw [heq, hkey] at hik
          cases hik
    | some k =>
      have hcount : nt.usednodes + 1 ≤ t.used.card := by
        rw [hn.usednodes]
        have hsucc := usedBelow_succ t j
        rw [if_neg (by rw [hkey]; exact Option.some_ne_none k)] at hsucc
        rw [← hsucc]
        exact t.usedBelow_le hj
      obtain ⟨nt', hnew, hmade⟩ := hfiles nt k (t.val j) hn.inv hn.packed (hn.absent h hkey)
        (by rw [hn.size]; omega)
      refine ⟨nt', ?_, hn.step h hkey hmade⟩
      change ((newSlot nt k (t.val j)).map Prod.fst).bind pure = some nt'
      rw [hnew]
      rfl

/-- What a rehash leaves. -/
structure Rehashed (heap : Heap) (t t' : SQTable) : Prop where
  inv : Inv heap t'
  usednodes : t'.usednodes = t.used.card
  holds : ∀ k v, t'.Holds k v ↔ t.Holds k v

/-- **`Rehash` moves every slot.** -/
theorem Filed.rehash_spec {heap : Heap} {t : SQTable} (h : Filed heap t)
    {newSlot : SQTable → SQObject → SQObjectPtr → Option (SQTable × Bool)}
    (hfiles : Files heap newSlot) (hused : t.used.card ≤ t.usednodes + 1) (force : Bool) :
    (t.rehash newSlot force = some t ∧ force = false) ∨
      ∃ t', t.rehash newSlot force = some t' ∧ Rehashed heap t t' := by
  rw [rehash, h.oldsize]
  rcases h.rehashSize_spec hused force with ⟨hnone, hforce⟩ | ⟨e, hsome, hroom⟩
  · rw [hnone]
    exact .inl ⟨rfl, hforce⟩
  · rw [hsome]
    obtain ⟨nt, hfold, hn⟩ := h.refill hfiles e hroom t.numofnodes le_rfl
    refine .inr ⟨nt, hfold, hn.inv, hn.usednodes, fun k v => (hn.holds k v).trans ?_⟩
    refine exists_congr fun i => and_iff_right_of_imp fun hi => h.inside i k hi.1

/-! ## `NewSlot` -/

/-- One call, with whatever it needs for a rehash, files a new key. -/
theorem newSlot_files (heap : Heap) (depth : Nat) : Files heap (newSlot heap (depth + 1)) := by
  intro t k v h hpacked habsent hroom
  rcases h.slot_spec k v with ⟨i, hi, -⟩ | ⟨-, ⟨t', hslot, hmade, -⟩ | ⟨t', -, hfull, -⟩⟩
  · exact absurd hi (habsent i)
  · exact ⟨t', by rw [newSlot, hslot]; rfl, hmade⟩
  · -- a packed table that is full has no room
    have hall := hfull.packed hpacked
    rw [hfull.used] at hall
    exact absurd hall (Nat.ne_of_lt hroom)

/-- A `NewSlot` has done its work. -/
structure Stored (heap : Heap) (t : SQTable) (k : SQObject) (v : SQObjectPtr) (t' : SQTable) :
    Prop where
  inv : Inv heap t'
  holds : ∀ k' v', t'.Holds k' v' ↔ (k' = k ∧ v' = v) ∨ (k' ≠ k ∧ t.Holds k' v')

/-- A value changes in the node of its key. -/
theorem Inv.setVal {heap : Heap} {t : SQTable} (h : Inv heap t) (i : Nat) (v : SQObjectPtr) :
    Inv heap (t.setVal i v) := by
  have hkey : (t.setVal i v).key = t.key := key_setVal t i v
  have hnext : (t.setVal i v).next = t.next := next_setVal t i v
  refine ⟨⟨h.size, ?_, ?_, ?_⟩, h.firstfree_lt, ?_, ?_, ?_⟩
  · rw [hkey, hnext]; exact h.layout
  · rw [hkey]; exact h.inside
  · rw [hnext]; exact h.closed
  · rw [hkey, hnext]; exact h.free
  · rw [hnext]; exact h.above
  · rw [used, hkey]; exact h.count

theorem Inv.stored_found {heap : Heap} {t : SQTable} (h : Inv heap t) {i : Nat} {k : SQObject}
    (hi : t.key i = some k) (v : SQObjectPtr) : Stored heap t k v (t.setVal i v) :=
  ⟨h.setVal i v, holds_setVal h.toFiled hi v⟩

/-- The call that follows a rehash finds the key. -/
theorem Full.finish {heap : Heap} {t u u' : SQTable} {k : SQObject} (hfull : Full heap t k u)
    (hre : Rehashed heap u u') (v : SQObjectPtr) (depth : Nat) :
    ∃ t', newSlot heap (depth + 1) u' k v = some (t', false) ∧ Stored heap t k v t' := by
  obtain ⟨w, hw⟩ := hfull.stored
  obtain ⟨i, hi, -⟩ := (hre.holds k w).mpr hw
  rcases hre.inv.slot_spec k v with ⟨j, hj, hslot⟩ | ⟨habsent, -⟩
  · refine ⟨u'.setVal j v, by rw [newSlot, hslot]; rfl, hre.inv.setVal j v, fun k' v' => ?_⟩
    refine (holds_setVal hre.inv.toFiled hj v k' v').trans (or_congr_right ?_)
    exact and_congr_right fun hne => (hre.holds k' v').trans (hfull.holds k' v' hne)
  · exact absurd hi (habsent i)

/-- **`NewSlot` stores the value under the key**, at any depth from 2 on, and says
whether it made the slot without a rehash. -/
theorem Inv.newSlot_spec {heap : Heap} {t : SQTable} (h : Inv heap t) (k : SQObject)
    (v : SQObjectPtr) (depth : Nat) :
    ∃ t' b, newSlot heap (depth + 2) t k v = some (t', b) ∧ Stored heap t k v t' ∧
      (b = true ↔ (∀ w, ¬ t.Holds k w) ∧ t.FreeLeft heap k) := by
  rw [newSlot]
  rcases h.slot_spec k v with ⟨i, hi, hslot⟩ |
    ⟨habsent, ⟨t', hslot, hmade, hleft⟩ | ⟨u, hslot, hfull, hleft⟩⟩
  · refine ⟨t.setVal i v, false, by rw [hslot]; rfl, h.stored_found hi v, ?_⟩
    exact iff_of_false Bool.false_ne_true fun hnew => hnew.1 _ ⟨i, hi, rfl⟩
  · refine ⟨t', true, by rw [hslot]; rfl, ⟨hmade.inv, hmade.holds⟩, ?_⟩
    refine iff_of_true rfl ⟨fun w hw => ?_, hleft⟩
    obtain ⟨i, hi, -⟩ := hw
    exact habsent i hi
  · rcases hfull.filed.rehash_spec (newSlot_files heap depth)
      (by rw [hfull.used, hfull.usednodes]) true with ⟨-, hforce⟩ | ⟨u', hre, hu'⟩
    · cases hforce
    · obtain ⟨t', hnew, hstored⟩ := hfull.finish hu' v depth
      refine ⟨t', false, ?_, hstored, ?_⟩
      · rw [hslot]
        simp only [Option.bind_eq_bind, Option.bind_some, hre, hnew]
      · exact iff_of_false Bool.false_ne_true fun hnew => hleft hnew.2

/-! ## `Remove` and `Clear` -/

/-- The node of a key is emptied; its links stay. -/
theorem Inv.erase {heap : Heap} {t : SQTable} (h : Inv heap t) {i : Nat} {k : SQObject}
    (hi : t.key i = some k) :
    Inv heap { (t.setVal i none).setKey i none with usednodes := t.usednodes - 1 } := by
  set u : SQTable := { (t.setVal i none).setKey i none with usednodes := t.usednodes - 1 }
  have hkey : u.key = Function.update t.key i none := by
    refine (key_setKey (t.setVal i none) i none).trans ?_
    rw [key_setVal]
  have hnext : u.next = t.next := by
    refine (next_setKey (t.setVal i none) i none).trans ?_
    rw [next_setVal]
  have hsub : ∀ j k', u.key j = some k' → t.key j = some k' := by
    intro j k' hj
    rw [hkey] at hj
    by_cases hji : j = i
    · rw [hji, Function.update_self] at hj
      cases hj
    · rwa [Function.update_of_ne hji] at hj
  refine ⟨⟨h.size, ?_, fun j k' hj => h.inside j k' (hsub j k' hj), ?_⟩, h.firstfree_lt, ?_, ?_, ?_⟩
  · rw [hnext]; exact h.layout.erase hsub
  · rw [hnext]; exact h.closed
  · have hne : t.firstfree ≠ i := by
      intro heq
      rw [← heq, h.free.1] at hi
      cases hi
    rw [hkey, hnext]
    exact ⟨by rw [show u.firstfree = t.firstfree from rfl, Function.update_of_ne hne, h.free.1],
      h.free.2⟩
  · rw [hnext]; exact h.above
  · have hused : u.used = t.used.erase i := by
      ext j
      rw [Finset.mem_erase, mem_used, mem_used, hkey]
      by_cases hji : j = i
      · rw [hji, Function.update_self]
        exact iff_of_false (fun hx => hx.2 rfl) fun hx => hx.1 rfl
      · rw [Function.update_of_ne hji]
        exact (and_iff_right hji).symm
    have hmem : i ∈ t.used :=
      mem_used.mpr ⟨h.inside i k hi, by rw [hi]; exact Option.some_ne_none k⟩
    rw [hused, Finset.card_erase_of_mem hmem, ← h.count]

theorem holds_erase {heap : Heap} {t : SQTable} (h : Inv heap t) {i : Nat} {k : SQObject}
    (hi : t.key i = some k) (n : Nat) (k' : SQObject) (v' : SQObjectPtr) :
    Holds { (t.setVal i none).setKey i none with usednodes := n } k' v' ↔
      k' ≠ k ∧ t.Holds k' v' := by
  have hread : Holds { (t.setVal i none).setKey i none with usednodes := n } k' v' ↔
      ∃ j, Function.update t.key i none j = some k' ∧ Function.update t.val i none j = v' := by
    have hkey := key_setKey (t.setVal i none) i none
    have hval := val_setKey (t.setVal i none) i none
    rw [key_setVal] at hkey
    rw [val_setVal] at hval
    rw [← hkey, ← hval]
    rfl
  rw [hread]
  constructor
  · intro ⟨j, hj, hv⟩
    by_cases hji : j = i
    · rw [hji, Function.update_self] at hj
      cases hj
    · rw [Function.update_of_ne hji] at hj hv
      refine ⟨fun heq => hji ?_, j, hj, hv⟩
      exact h.layout.unique j i k (heq ▸ hj) hi
  · intro ⟨hne, j, hj, hv⟩
    have hji : j ≠ i := by
      intro heq
      rw [heq, hi] at hj
      exact hne (Option.some.inj hj).symm
    exact ⟨j, by rw [Function.update_of_ne hji, hj], by rw [Function.update_of_ne hji, hv]⟩

/-- **`Remove` takes the slot of the key out** and no other. -/
theorem Inv.remove_spec {heap : Heap} {t : SQTable} (h : Inv heap t) (k : SQObject) :
    ∃ t', t.Remove heap k = some t' ∧ Inv heap t' ∧
      ∀ k' v', t'.Holds k' v' ↔ k' ≠ k ∧ t.Holds k' v' := by
  obtain ⟨r, hget, hr⟩ := h.get_spec k
  rw [Remove, hget]
  cases r with
  | none =>
    refine ⟨t, rfl, h, fun k' v' => (and_iff_right_of_imp fun hv heq => ?_).symm⟩
    obtain ⟨i, hi, -⟩ := hv
    rw [heq] at hi
    cases (hr i).mpr hi
  | some i =>
    have hi := (hr i).mp rfl
    have hinv := h.erase hi
    simp only [Option.bind_eq_bind, Option.bind_some]
    rcases hinv.toFiled.rehash_spec (newSlot_files heap 1)
      (by rw [← hinv.count]; exact Nat.le_succ _) false with ⟨hsame, -⟩ | ⟨t', hre, hu⟩
    · exact ⟨_, hsame, hinv, holds_erase h hi _⟩
    · exact ⟨t', hre, hu.inv, fun k' v' => (hu.holds k' v').trans (holds_erase h hi _ k' v')⟩

theorem Inv.clear_spec {heap : Heap} {t : SQTable} (h : Inv heap t) :
    ∃ t', t.Clear heap = some t' ∧ Inv heap t' ∧ ∀ k v, ¬ t'.Holds k v := by
  have hfiled : Filed heap { t._ClearNodes with usednodes := 0 } :=
    ⟨h.size, h.layout.erase nofun, nofun, h.closed⟩
  have hused : SQTable.used { t._ClearNodes with usednodes := 0 } = ∅ :=
    Finset.filter_eq_empty_iff.mpr fun _ _ hne => hne rfl
  rw [Clear]
  rcases hfiled.rehash_spec (newSlot_files heap 1)
    (by rw [hused, Finset.card_empty]; exact Nat.zero_le _) true with ⟨-, hforce⟩ | ⟨t', hre, hu⟩
  · cases hforce
  · refine ⟨t', hre, hu.inv, fun k v hv => ?_⟩
    obtain ⟨i, hi, -⟩ := (hu.holds k v).mp hv
    cases hi

end SQTable

end Autocom.Squirrel
