import Autocom.SQTableRehash
import Mathlib.Data.Set.Card

/-! # A `SQTable` is a map

Whatever is called on a table, in whatever order, the answers are those of a map
from keys to values. `NewSlot` answers a question about the node array as well,
and so does `Set` for a null key; these two answers are not compared. -/
namespace Autocom.Squirrel
open Autocom.Lib.Links Autocom.Lib.Scatter SQTable

/-- Each key with its value. -/
abbrev Map : Type := SQObject → Option SQObjectPtr

inductive Op
  | newSlot (key : SQObject) (val : SQObjectPtr)
  | set (key val : SQObjectPtr)
  | get (key : SQObjectPtr)
  | remove (key : SQObject)
  | clear
  | countUsed
  deriving DecidableEq

inductive Answer
  | void
  | bool (b : Bool)
  | object (o : Option SQObjectPtr)
  | number (n : Nat)
  deriving DecidableEq

section
variable (heap : Heap)

def SQTable.call (t : SQTable) : Op → Option (SQTable × Answer)
  | .newSlot key val => do
    let (t, _) ← t.NewSlot heap key val
    return (t, .void)
  | .set none val => do
    let (t, _) ← t.Set heap none val
    return (t, .void)
  | .set (some key) val => do
    let (t, b) ← t.Set heap (some key) val
    return (t, .bool b)
  | .get key => do
    let o ← t.Get heap key
    return (t, .object o)
  | .remove key => do
    let t ← t.Remove heap key
    return (t, .void)
  | .clear => do
    let t ← t.Clear heap
    return (t, .void)
  | .countUsed => some (t, .number t.CountUsed)

def SQTable.calls (t : SQTable) : List Op → Option (SQTable × List Answer)
  | [] => some (t, [])
  | op :: ops => do
    let (t, a) ← t.call heap op
    let (t, as) ← t.calls ops
    return (t, a :: as)

/-- The same calls on a map. -/
noncomputable def Map.call (m : Map) : Op → Map × Answer
  | .newSlot key val => (Function.update m key (some val), .void)
  | .set none _ => (m, .void)
  | .set (some key) val =>
    if (m key).isSome then (Function.update m key (some val), .bool true) else (m, .bool false)
  | .get none => (m, .object none)
  | .get (some key) => (m, .object ((m key).map (realval heap)))
  | .remove key => (Function.update m key none, .void)
  | .clear => (fun _ => none, .void)
  | .countUsed => (m, .number {k | m k ≠ none}.ncard)

noncomputable def Map.calls (m : Map) : List Op → Map × List Answer
  | [] => (m, [])
  | op :: ops =>
    let (m, a) := m.call heap op
    let (m, as) := m.calls ops
    (m, a :: as)

end

/-- The table is in order, and its slots are the map. -/
structure Represents (heap : Heap) (t : SQTable) (m : Map) : Prop where
  inv : Inv heap t
  holds : ∀ k v, m k = some v ↔ t.Holds k v

variable {heap : Heap} {t : SQTable} {m : Map}

theorem Represents.none_iff (h : Represents heap t m) (k : SQObject) :
    m k = none ↔ ∀ i, t.key i ≠ some k := by
  rw [Option.eq_none_iff_forall_ne_some]
  constructor
  · intro hall i hi
    exact hall (t.val i) ((h.holds k _).mpr ⟨i, hi, rfl⟩)
  · intro hall v hv
    obtain ⟨i, hi, -⟩ := (h.holds k v).mp hv
    exact hall i hi

/-- A slot that is set, or made. -/
theorem Represents.update (h : Represents heap t m) {t' : SQTable} {k : SQObject}
    {v : SQObjectPtr} (hs : Stored heap t k v t') :
    Represents heap t' (Function.update m k (some v)) := by
  refine ⟨hs.inv, fun k' v' => ?_⟩
  rw [hs.holds]
  by_cases hk : k' = k
  · rw [hk, Function.update_self, and_iff_right rfl, or_iff_left fun hne => hne.1 rfl,
      Option.some_inj, eq_comm]
  · rw [Function.update_of_ne hk, or_iff_right fun heq => hk heq.1, and_iff_right hk]
    exact h.holds k' v'

/-- As many nodes are in use as there are keys. -/
theorem Represents.count (h : Represents heap t m) : t.CountUsed = {k | m k ≠ none}.ncard := by
  have hsome : ∀ i ∈ (t.used : Set Nat), (t.key i).isSome := fun i hi =>
    Option.isSome_iff_ne_none.mpr (mem_used.mp (Finset.mem_coe.mp hi)).2
  rw [CountUsed, h.inv.count, ← Set.ncard_coe_finset]
  refine Set.ncard_congr (fun i hi => (t.key i).get (hsome i hi)) ?_ ?_ ?_
  · intro i hi hnone
    exact (h.none_iff _).mp hnone i (Option.some_get (hsome i hi)).symm
  · intro i j hi hj heq
    refine h.inv.layout.unique i j _ (Option.some_get (hsome i hi)).symm ?_
    rw [heq, Option.some_get]
  · intro k hk
    obtain ⟨v, hv⟩ := Option.ne_none_iff_exists'.mp hk
    obtain ⟨i, hi, -⟩ := (h.holds k v).mp hv
    refine ⟨i, Finset.mem_coe.mpr (mem_used.mpr ⟨h.inv.inside i k hi, ?_⟩), ?_⟩
    · rw [hi]; exact Option.some_ne_none k
    · simp only [hi, Option.get_some]

/-! ## One call -/

/-- `_Get`, of null as well. -/
theorem SQTable.Inv.get_returns (h : Inv heap t) (key : SQObjectPtr) :
    ∃ r, t._Get heap key = some r ∧ ∀ i, r = some i → t.key i = key := by
  have hclosed : ∀ i j, t.next i = some j → j ∈ List.range t.numofnodes := fun i j hij =>
    List.mem_range.mpr (h.closed i j hij)
  have hlt : mainPosition heap t.numofnodes key < t.numofnodes :=
    mainPosition_lt heap (Nat.lt_of_lt_of_le (Nat.succ_pos 3) h.four_le) key
  obtain ⟨r, hr⟩ := search_ends h.layout.acyclic hclosed (List.mem_range.mpr hlt)
    fun i => t.key i == key
  rw [List.length_range] at hr
  refine ⟨r, hr, fun i hi => ?_⟩
  subst hi
  exact eq_of_beq (search_found hr).2

/-- A free node keeps what `Set(null, val)` writes to it, and no slot changes. -/
theorem Represents.set_null (h : Represents heap t m) (val : SQObjectPtr) :
    ∃ t', t.Set heap none val = some t' ∧ Represents heap t'.1 m := by
  obtain ⟨r, hget, hr⟩ := h.inv.get_returns none
  rw [SQTable.Set, hget]
  cases r with
  | none => exact ⟨_, rfl, h⟩
  | some i =>
    have hi : t.key i = none := hr i rfl
    refine ⟨_, rfl, h.inv.setVal i val, fun k v => (h.holds k v).trans ?_⟩
    rw [Holds, Holds, key_setVal, val_setVal]
    refine exists_congr fun j => and_congr_right fun hj => ?_
    have hji : j ≠ i := by
      intro heq
      rw [heq, hi] at hj
      cases hj
    rw [Function.update_of_ne hji]

theorem Represents.set (h : Represents heap t m) (k : SQObject) (val : SQObjectPtr) :
    ∃ t', t.Set heap (some k) val = some (t', (m k).isSome) ∧
      Represents heap t' (if (m k).isSome then Function.update m k (some val) else m) := by
  obtain ⟨r, hget, hr⟩ := h.inv.get_spec k
  rw [SQTable.Set, hget]
  cases r with
  | none =>
    have hnone : m k = none := (h.none_iff k).mpr fun i hi => nomatch (hr i).mpr hi
    rw [hnone]
    exact ⟨t, rfl, h⟩
  | some i =>
    have hi : t.key i = some k := (hr i).mp rfl
    rw [(h.holds k (t.val i)).mpr ⟨i, hi, rfl⟩]
    exact ⟨t.setVal i val, rfl, h.update (h.inv.stored_found hi val)⟩

theorem Represents.get (h : Represents heap t m) (k : SQObject) :
    t.Get heap (some k) = some ((m k).map (realval heap)) := by
  obtain ⟨r, hget, hr⟩ := h.inv.get_spec k
  rw [SQTable.Get, if_neg (Option.some_ne_none k), hget]
  cases r with
  | none =>
    have hnone : m k = none := (h.none_iff k).mpr fun i hi => nomatch (hr i).mpr hi
    rw [hnone]
    rfl
  | some i =>
    rw [(h.holds k (t.val i)).mpr ⟨i, (hr i).mp rfl, rfl⟩]
    rfl

theorem Represents.remove (h : Represents heap t m) (k : SQObject) :
    ∃ t', t.Remove heap k = some t' ∧ Represents heap t' (Function.update m k none) := by
  obtain ⟨t', hrem, hinv, hholds⟩ := h.inv.remove_spec k
  refine ⟨t', hrem, hinv, fun k' v' => ?_⟩
  rw [hholds]
  by_cases hk : k' = k
  · rw [hk, Function.update_self]
    exact iff_of_false nofun fun hne => hne.1 rfl
  · rw [Function.update_of_ne hk, and_iff_right hk]
    exact h.holds k' v'

/-- **One call**: it returns, with the answer of the map. -/
theorem Represents.call (h : Represents heap t m) (op : Op) :
    ∃ t', t.call heap op = some (t', (m.call heap op).2) ∧
      Represents heap t' (m.call heap op).1 := by
  cases op with
  | newSlot key val =>
    obtain ⟨t', b, hnew, hs, -⟩ := h.inv.newSlot_spec key val 0
    refine ⟨t', ?_, h.update hs⟩
    rw [SQTable.call, NewSlot, hnew]
    rfl
  | set key val =>
    cases key with
    | none =>
      obtain ⟨t', hset, ht'⟩ := h.set_null val
      refine ⟨t'.1, ?_, ht'⟩
      rw [SQTable.call, hset]
      rfl
    | some key =>
      obtain ⟨t', hset, ht'⟩ := h.set key val
      refine ⟨t', ?_, ?_⟩
      · rw [SQTable.call, hset, Map.call]
        cases (m key).isSome <;> rfl
      · rw [Map.call]
        cases hk : (m key).isSome <;> rw [hk] at ht' <;> exact ht'
  | get key =>
    cases key with
    | none => exact ⟨t, rfl, h⟩
    | some key => exact ⟨t, by rw [SQTable.call, h.get]; rfl, h⟩
  | remove key =>
    obtain ⟨t', hrem, ht'⟩ := h.remove key
    exact ⟨t', by rw [SQTable.call, hrem]; rfl, ht'⟩
  | clear =>
    obtain ⟨t', hclear, hinv, hnone⟩ := h.inv.clear_spec
    refine ⟨t', by rw [SQTable.call, hclear]; rfl, hinv, fun k v => ?_⟩
    exact iff_of_false nofun (hnone k v)
  | countUsed => exact ⟨t, by rw [SQTable.call, h.count]; rfl, h⟩

/-! ## Every sequence of calls -/

theorem pow2size_spec (nInitialSize : Nat) (fuel e : Nat) :
    ∃ e', pow2size nInitialSize fuel (2 ^ (e + 2)) = 2 ^ (e' + 2) := by
  induction fuel generalizing e with
  | zero => exact ⟨e, rfl⟩
  | succ fuel ih =>
    rw [pow2size]
    split
    · rw [Nat.shiftLeft_eq, ← Nat.pow_add]
      exact ih (e + 1)
    · exact ⟨e, rfl⟩

theorem represents_create (heap : Heap) (nInitialSize : Nat) :
    Represents heap (Create nInitialSize) fun _ => none := by
  obtain ⟨e, he⟩ := pow2size_spec nInitialSize nInitialSize 0
  have hcreate : Create nInitialSize = AllocNodes (2 ^ (e + 2)) := congrArg AllocNodes he
  rw [hcreate]
  refine ⟨inv_alloc heap e, fun k v => iff_of_false nofun ?_⟩
  intro ⟨i, hi, _⟩
  cases hi

theorem Represents.calls (h : Represents heap t m) (ops : List Op) :
    ∃ t', t.calls heap ops = some (t', (m.calls heap ops).2) ∧
      Represents heap t' (m.calls heap ops).1 := by
  induction ops generalizing t m with
  | nil => exact ⟨t, rfl, h⟩
  | cons op ops ih =>
    obtain ⟨t₁, hcall, ht₁⟩ := h.call op
    obtain ⟨t', hcalls, ht'⟩ := ih ht₁
    refine ⟨t', ?_, ht'⟩
    rw [SQTable.calls, hcall]
    simp only [Option.bind_eq_bind, Option.bind_some, hcalls]
    rfl

/-- **A table is a map**: every sequence of calls on a new table returns, none of
its loops runs on, and the answers are those of the map. -/
theorem table_is_map (heap : Heap) (nInitialSize : Nat) (ops : List Op) :
    ∃ t, (Create nInitialSize).calls heap ops =
        some (t, (Map.calls heap (fun _ => none) ops).2) ∧
      Represents heap t (Map.calls heap (fun _ => none) ops).1 :=
  (represents_create heap nInitialSize).calls ops

/-- Ten keys in four nodes, one of them removed. -/
example :
    ((Create 0).calls ⟨id, id, fun _ => none⟩
      ((List.range 10).map (fun n => .newSlot ⟨.OT_INTEGER, BitVec.ofNat 64 (4 * n)⟩ none) ++
        [.remove ⟨.OT_INTEGER, 4⟩, .get (some ⟨.OT_INTEGER, 4⟩), .get (some ⟨.OT_INTEGER, 8⟩),
          .countUsed])).map (fun r => r.2.drop 11) =
      some [.object none, .object (some none), .number 9] := by
  decide +kernel

/-- **`NewSlot` answers true exactly when the key is new and a place is left** once
the key is filed: a new key that makes the table rehash is answered with false. -/
theorem newSlot_answers (heap : Heap) (nInitialSize : Nat) (ops : List Op) (t : SQTable)
    (as : List Answer) (h : (Create nInitialSize).calls heap ops = some (t, as))
    (key : SQObject) (val : SQObjectPtr) :
    ∃ t' b, t.NewSlot heap key val = some (t', b) ∧
      (b = true ↔ (Map.calls heap (fun _ => none) ops).1 key = none ∧ t.FreeLeft heap key) := by
  obtain ⟨u, hu, hrep⟩ := (represents_create heap nInitialSize).calls ops
  rw [h] at hu
  cases hu
  obtain ⟨t', b, hnew, -, hb⟩ := hrep.inv.newSlot_spec key val 0
  refine ⟨t', b, hnew, hb.trans (and_congr_left fun _ => ?_)⟩
  rw [Option.eq_none_iff_forall_ne_some]
  exact forall_congr' fun w => not_congr (hrep.holds key w).symm

/-- Four keys for four nodes: the last one makes the table rehash. -/
theorem newSlot_answers_rehash :
    ∃ t as, (Create 0).calls ⟨id, id, fun _ => none⟩
        ((List.range 3).map fun n => .newSlot ⟨.OT_INTEGER, BitVec.ofNat 64 n⟩ none) =
          some (t, as) ∧
      ∃ t' b, t.NewSlot ⟨id, id, fun _ => none⟩ ⟨.OT_INTEGER, 3⟩ none = some (t', b) ∧
        (b = true ↔ (Map.calls ⟨id, id, fun _ => none⟩ (fun _ => none)
            ((List.range 3).map fun n => .newSlot ⟨.OT_INTEGER, BitVec.ofNat 64 n⟩ none)).1
              ⟨.OT_INTEGER, 3⟩ = none ∧
          t.FreeLeft ⟨id, id, fun _ => none⟩ ⟨.OT_INTEGER, 3⟩) :=
  ⟨_, _, rfl, newSlot_answers ⟨id, id, fun _ => none⟩ 0
    ((List.range 3).map fun n => .newSlot ⟨.OT_INTEGER, BitVec.ofNat 64 n⟩ none) _ _ rfl
    ⟨.OT_INTEGER, 3⟩ none⟩

/-! ## Iteration -/

/-- `foreach`: `Next` from `idx` until it gives -1, in at most `fuel` turns. -/
def SQTable.foreach (heap : Heap) (t : SQTable) (getweakrefs : Bool) :
    Nat → Nat → Option (List (SQObject × SQObjectPtr))
  | 0, _ => none
  | fuel + 1, idx =>
    match t.Next heap getweakrefs idx with
    | none => some []
    | some (idx, key, val) => (t.foreach heap getweakrefs fuel idx).map ((key, val) :: ·)

/-- `Clone` without `_FAST_CLONE`: the loop, from `ridx` on. -/
def SQTable.cloneFrom (heap : Heap) (t : SQTable) : Nat → Nat → SQTable → Option SQTable
  | 0, _, _ => none
  | fuel + 1, ridx, nt =>
    match t.Next heap true ridx with
    | none => some nt
    | some (ridx, key, val) => do
      let (nt, _) ← nt.NewSlot heap key val
      t.cloneFrom heap fuel ridx nt

def SQTable.Clone (heap : Heap) (t : SQTable) : Option SQTable :=
  t.cloneFrom heap (t.numofnodes + 1) 0 (Create t.numofnodes)

/-- What `Next` makes of a value. -/
def shown (heap : Heap) (getweakrefs : Bool) (v : SQObjectPtr) : SQObjectPtr :=
  if getweakrefs then v else realval heap v

/-- The first node in use from `idx` on. -/
theorem nextFrom_spec (heap : Heap) (t : SQTable) (getweakrefs : Bool) (fuel idx : Nat)
    (hfuel : idx + fuel = t.numofnodes) :
    (t.nextFrom heap getweakrefs fuel idx = none ∧
        ∀ i, idx ≤ i → i < t.numofnodes → t.key i = none) ∨
      ∃ i k, t.nextFrom heap getweakrefs fuel idx =
          some (i + 1, k, shown heap getweakrefs (t.val i)) ∧
        idx ≤ i ∧ i < t.numofnodes ∧ t.key i = some k ∧ ∀ j, idx ≤ j → j < i → t.key j = none := by
  induction fuel generalizing idx with
  | zero =>
    refine .inl ⟨rfl, fun i hi hlt => ?_⟩
    omega
  | succ fuel ih =>
    have hlt : idx < t.numofnodes := by omega
    rw [nextFrom, if_pos hlt]
    cases hkey : t.key idx with
    | some k =>
      refine .inr ⟨idx, k, rfl, le_rfl, hlt, hkey, fun j hj hji => ?_⟩
      exact absurd hj (Nat.not_le.mpr hji)
    | none =>
      have hfirst : ∀ {P : Nat → Prop}, (∀ i, idx + 1 ≤ i → P i → t.key i = none) →
          ∀ i, idx ≤ i → P i → t.key i = none := by
        intro P hall i hi hP
        rcases Nat.eq_or_lt_of_le hi with rfl | hlt'
        · exact hkey
        · exact hall i hlt' hP
      rcases ih (idx + 1) (by omega) with ⟨hnone, hall⟩ | ⟨i, k, hsome, hi, hin, hik, hall⟩
      · exact .inl ⟨hnone, hfirst hall⟩
      · exact .inr ⟨i, k, hsome, Nat.le_of_succ_le hi, hin, hik, hfirst hall⟩

/-- What is left of an iteration that stands at `idx`. -/
def SQTable.Ahead (t : SQTable) (idx : Nat) (k : SQObject) (v : SQObjectPtr) : Prop :=
  ∃ i, idx ≤ i ∧ t.key i = some k ∧ t.val i = v

/-- One turn: nothing is left, or the first slot that is. -/
theorem SQTable.Inv.next_spec (h : Inv heap t) (getweakrefs : Bool) (idx : Nat)
    (hidx : idx ≤ t.numofnodes) :
    (t.Next heap getweakrefs idx = none ∧ ∀ k v, ¬ t.Ahead idx k v) ∨
      ∃ i k v, t.Next heap getweakrefs idx = some (i, k, shown heap getweakrefs v) ∧
        idx < i ∧ i ≤ t.numofnodes ∧ (∀ w, ¬ t.Ahead i k w) ∧
        ∀ k' v', t.Ahead idx k' v' ↔ (k' = k ∧ v' = v) ∨ t.Ahead i k' v' := by
  rcases nextFrom_spec heap t getweakrefs (t.numofnodes - idx) idx (by omega) with
    ⟨hnone, hall⟩ | ⟨i, k, hsome, hi, hin, hik, hall⟩
  · refine .inl ⟨hnone, fun k v => ?_⟩
    intro ⟨i, hi, hkey, _⟩
    rw [hall i hi (h.inside i k hkey)] at hkey
    cases hkey
  · refine .inr ⟨i + 1, k, t.val i, hsome, Nat.lt_succ_of_le hi, hin, fun w => ?_,
      fun k' v' => ⟨?_, ?_⟩⟩
    · intro ⟨j, hj, hkey, _⟩
      exact absurd (h.layout.unique j i k hkey hik) (Nat.ne_of_gt hj)
    · intro ⟨j, hj, hkey, hval⟩
      rcases Nat.lt_trichotomy j i with hlt | rfl | hgt
      · rw [hall j hj hlt] at hkey
        cases hkey
      · rw [hik] at hkey
        exact .inl ⟨(Option.some.inj hkey).symm, hval.symm⟩
      · exact .inr ⟨j, hgt, hkey, hval⟩
    · intro hor
      rcases hor with ⟨rfl, rfl⟩ | ⟨j, hj, hkey, hval⟩
      · exact ⟨i, hi, hik, rfl⟩
      · exact ⟨j, by omega, hkey, hval⟩

theorem SQTable.Inv.foreach_spec (h : Inv heap t) (getweakrefs : Bool) (fuel idx : Nat)
    (hidx : idx ≤ t.numofnodes) (hfuel : t.numofnodes < idx + fuel) :
    ∃ l, t.foreach heap getweakrefs fuel idx = some l ∧ (l.map Prod.fst).Nodup ∧
      ∀ k v, (k, v) ∈ l ↔ ∃ w, t.Ahead idx k w ∧ v = shown heap getweakrefs w := by
  induction fuel generalizing idx with
  | zero => omega
  | succ fuel ih =>
    rw [SQTable.foreach]
    rcases h.next_spec getweakrefs idx hidx with
      ⟨hnone, hall⟩ | ⟨i, k, v, hsome, hi, hin, honce, hahead⟩
    · rw [hnone]
      refine ⟨[], rfl, List.nodup_nil, fun k v => iff_of_false List.not_mem_nil ?_⟩
      intro ⟨w, hw, _⟩
      exact hall k w hw
    · obtain ⟨l, hl, hnodup, hmem⟩ := ih i hin (by omega)
      rw [hsome]
      refine ⟨(k, shown heap getweakrefs v) :: l, by simp only [hl, Option.map_some], ?_,
        fun k' v' => ?_⟩
      · rw [List.map_cons, List.nodup_cons]
        refine ⟨fun hk => ?_, hnodup⟩
        obtain ⟨⟨k₁, v₁⟩, hin₁, heq⟩ := List.mem_map.mp hk
        obtain ⟨w, hw, -⟩ := (hmem k₁ v₁).mp hin₁
        rw [show k₁ = k from heq] at hw
        exact honce w hw
      · rw [List.mem_cons, hmem, Prod.mk.injEq]
        constructor
        · intro hor
          rcases hor with ⟨rfl, rfl⟩ | ⟨w, hw, hv⟩
          · exact ⟨v, (hahead k' v).mpr (.inl ⟨rfl, rfl⟩), rfl⟩
          · exact ⟨w, (hahead k' w).mpr (.inr hw), hv⟩
        · intro ⟨w, hw, hv⟩
          rcases (hahead k' w).mp hw with ⟨rfl, rfl⟩ | hrest
          · exact .inl ⟨rfl, hv⟩
          · exact .inr ⟨w, hrest, hv⟩

theorem Represents.ahead (h : Represents heap t m) (k : SQObject) (v : SQObjectPtr) :
    t.Ahead 0 k v ↔ m k = some v := by
  rw [h.holds]
  exact exists_congr fun i => and_iff_right (Nat.zero_le i)

/-- **`foreach` visits each slot once**, and ends. -/
theorem foreach_visits (heap : Heap) (nInitialSize : Nat) (ops : List Op) (getweakrefs : Bool) :
    ∃ t as l, (Create nInitialSize).calls heap ops = some (t, as) ∧
      t.foreach heap getweakrefs (t.numofnodes + 1) 0 = some l ∧ (l.map Prod.fst).Nodup ∧
      ∀ k v, (k, v) ∈ l ↔ ∃ w, (Map.calls heap (fun _ => none) ops).1 k = some w ∧
        v = if getweakrefs then w else realval heap w := by
  obtain ⟨t, ht, hrep⟩ := (represents_create heap nInitialSize).calls ops
  obtain ⟨l, hl, hnodup, hmem⟩ := hrep.inv.foreach_spec getweakrefs (t.numofnodes + 1) 0
    (Nat.zero_le _) (by omega)
  refine ⟨t, _, l, ht, hl, hnodup, fun k v => (hmem k v).trans ?_⟩
  exact exists_congr fun w => and_congr_left fun _ => hrep.ahead k w

/-- The copy, with what the loop has not come to yet. -/
theorem SQTable.Inv.cloneFrom_spec (h : Inv heap t) (fuel idx : Nat) (hidx : idx ≤ t.numofnodes)
    (hfuel : t.numofnodes < idx + fuel) {nt : SQTable} {m : Map} (hnt : Represents heap nt m)
    (hm : ∀ k v, t.Ahead idx k v → m k = none) :
    ∃ nt' m', t.cloneFrom heap fuel idx nt = some nt' ∧ Represents heap nt' m' ∧
      ∀ k v, m' k = some v ↔ m k = some v ∨ t.Ahead idx k v := by
  induction fuel generalizing idx nt m with
  | zero => omega
  | succ fuel ih =>
    rw [SQTable.cloneFrom]
    rcases h.next_spec true idx hidx with
      ⟨hnone, hall⟩ | ⟨i, k, v, hsome, hi, hin, honce, hahead⟩
    · rw [hnone]
      exact ⟨nt, m, rfl, hnt, fun k v => (or_iff_left (hall k v)).symm⟩
    · obtain ⟨nt₁, b, hnew, hs, -⟩ := hnt.inv.newSlot_spec k (shown heap true v) 0
      have hk : m k = none := hm k v ((hahead k v).mpr (.inl ⟨rfl, rfl⟩))
      have hfresh : ∀ k' v', t.Ahead i k' v' → Function.update m k (some v) k' = none := by
        intro k' v' hrest
        have hne : k' ≠ k := fun heq => honce v' (heq ▸ hrest)
        rw [Function.update_of_ne hne]
        exact hm k' v' ((hahead k' v').mpr (.inr hrest))
      obtain ⟨nt', m', hclone, hnt', hm'⟩ := ih i hin (by omega) (hnt.update hs) hfresh
      refine ⟨nt', m', ?_, hnt', fun k' v' => ?_⟩
      · rw [hsome]
        simp only [NewSlot, hnew, Option.bind_eq_bind, Option.bind_some, hclone]
      · rw [hm', hahead]
        by_cases hk' : k' = k
        · rw [hk', Function.update_self, hk, Option.some_inj]
          exact ⟨fun hor =>
              hor.elim (fun hv => .inr (.inl ⟨rfl, hv.symm⟩)) fun hx => .inr (.inr hx),
            fun hor => hor.elim nofun fun hx => hx.elim (fun hv => .inl hv.2.symm) .inr⟩
        · rw [Function.update_of_ne hk']
          exact or_congr_right (or_iff_right fun heq => hk' heq.1).symm

/-- **A clone has the slots of the table**, whatever was removed from it before. -/
theorem clone_same (heap : Heap) (nInitialSize : Nat) (ops : List Op) :
    ∃ t as nt, (Create nInitialSize).calls heap ops = some (t, as) ∧ t.Clone heap = some nt ∧
      Represents heap nt (Map.calls heap (fun _ => none) ops).1 := by
  obtain ⟨t, ht, hrep⟩ := (represents_create heap nInitialSize).calls ops
  obtain ⟨nt, m', hclone, hnt, hm'⟩ := hrep.inv.cloneFrom_spec (t.numofnodes + 1) 0
    (Nat.zero_le _) (by omega) (represents_create heap t.numofnodes) fun _ _ _ => rfl
  refine ⟨t, _, nt, ht, hclone, hnt.inv, fun k v => ?_⟩
  rw [← hnt.holds, hm', hrep.ahead, or_iff_right nofun]

end Autocom.Squirrel
