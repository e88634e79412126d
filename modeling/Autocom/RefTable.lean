import Autocom.Lib.Chains
import Autocom.SQTable

/-! # `RefTable`, the objects that the host holds

`sq_addref` and `sq_release` count, for each object, the references from outside
the VM. The nodes are one array: each is in the chain of its bucket or, without an
object, in the free list. Null is `none` and an address is an index, as in
`SQTable`; the outer `none` of an operation is a failing assertion, a null
dereference or a loop that does not end. -/
namespace Autocom.Squirrel
open Autocom.Lib.Chains

structure RefNode where
  obj : SQObjectPtr
  refs : Nat
  next : Option Nat

structure RefTable where
  nodes : Nat → RefNode
  buckets : Nat → Option Nat
  freelist : Option Nat
  numofslots : Nat
  slotused : Nat

namespace RefTable

def obj (t : RefTable) (i : Nat) : SQObjectPtr := (t.nodes i).obj
def refs (t : RefTable) (i : Nat) : Nat := (t.nodes i).refs
def next (t : RefTable) (i : Nat) : Option Nat := (t.nodes i).next

def setNode (t : RefTable) (i : Nat) (n : RefNode) : RefTable :=
  { t with nodes := Function.update t.nodes i n }

def setRefs (t : RefTable) (i refs : Nat) : RefTable := t.setNode i { t.nodes i with refs := refs }

def AllocNodes (size : Nat) : RefTable :=
  { nodes := fun n => ⟨none, 0, if n + 1 < size then some (n + 1) else none⟩
    buckets := fun _ => none, freelist := some 0, numofslots := size, slotused := 0 }

def Create : RefTable := AllocNodes 4

def Add (t : RefTable) (mainpos : Nat) (obj : SQObject) : Option (RefTable × Nat) := do
  let newnode ← t.freelist
  if t.refs newnode = 0 then
    return ({ t.setNode newnode ⟨some obj, t.refs newnode, t.buckets mainpos⟩ with
      buckets := Function.update t.buckets mainpos (some newnode)
      freelist := t.next newnode
      slotused := t.slotused + 1 }, newnode)
  else none

section
variable (heap : Heap)

/-- One turn of the loop in `Resize`, with the count `nfound`. -/
def addBack (t : RefTable) (r : RefTable × Nat) (n : Nat) : Option (RefTable × Nat) :=
  match t.obj n with
  | none => some r
  | some obj =>
    if t.refs n = 0 then none
    else do
      let (u, nn) ← r.1.Add (mainPosition heap r.1.numofslots (some obj)) obj
      return (u.setRefs nn (t.refs n), r.2 + 1)

def Resize (t : RefTable) (size : Nat) : Option RefTable := do
  let (u, nfound) ← (List.range t.numofslots).foldlM (t.addBack heap) (AllocNodes size, 0)
  if nfound = t.numofslots then some u else none

/-- `Get(obj,mainpos,&prev,false)`: `prev` and the node. -/
def find (t : RefTable) (obj : SQObject) : Option (Option Nat × Option Nat) :=
  seek t.next (fun i => t.obj i == some obj) t.numofslots none
    (t.buckets (mainPosition heap t.numofslots (some obj)))

/-- `Get(obj,mainpos,&prev,true)`. -/
def findOrAdd (t : RefTable) (obj : SQObject) : Option (RefTable × Nat) := do
  match ← t.find heap obj with
  | (_, some ref) => return (t, ref)
  | (_, none) =>
    let t ← if t.numofslots = t.slotused then
        if t.freelist = none then t.Resize heap (t.numofslots * 2) else none
      else some t
    t.Add (mainPosition heap t.numofslots (some obj)) obj

def AddRef (t : RefTable) (obj : SQObject) : Option RefTable := do
  let (t, ref) ← t.findOrAdd heap obj
  return t.setRefs ref (t.refs ref + 1)

def GetRefCount (t : RefTable) (obj : SQObject) : Option (RefTable × Nat) := do
  let (t, ref) ← t.findOrAdd heap obj
  return (t, t.refs ref)

/-- `--ref->refs` of an unsigned number. -/
def decrement : Nat → Nat
  | 0 => 2 ^ 64 - 1
  | n + 1 => n

/-- The node is taken out of its bucket. -/
def unhook (t : RefTable) (mainpos : Nat) (prev : Option Nat) (ref : Nat) : RefTable :=
  match prev with
  | some q => t.setNode q { t.nodes q with next := t.next ref }
  | none => { t with buckets := Function.update t.buckets mainpos (t.next ref) }

/-- It goes to the free list, without its object. -/
def free (t : RefTable) (mainpos : Nat) (prev : Option Nat) (ref : Nat) : RefTable :=
  let t := t.unhook mainpos prev ref
  { t.setNode ref ⟨none, t.refs ref, t.freelist⟩ with
    freelist := some ref, slotused := t.slotused - 1 }

def Release (t : RefTable) (obj : SQObject) : Option (RefTable × Bool) := do
  match ← t.find heap obj with
  | (_, none) => none
  | (prev, some ref) =>
    let refs := decrement (t.refs ref)
    let t := t.setRefs ref refs
    if refs = 0 then
      return (t.free (mainPosition heap t.numofslots (some obj)) prev ref, true)
    else return (t, false)

end

/-! ## The nodes are filed -/

/-- The start of a chain; `none` is the free list. -/
def head (t : RefTable) : Option Nat → Option Nat
  | none => t.freelist
  | some mainpos => t.buckets mainpos

/-- The chain that a node belongs to. -/
def place (heap : Heap) (t : RefTable) (i : Nat) : Option Nat :=
  (t.obj i).map fun k => mainPosition heap t.numofslots (some k)

def used (t : RefTable) : Finset Nat := (Finset.range t.numofslots).filter fun i => t.obj i ≠ none

/-- Every node is in its chain, no two have one object, and a free one counts nothing. -/
structure Filed (heap : Heap) (t : RefTable) : Prop where
  pos : 0 < t.numofslots
  buckets : Buckets t.next t.head (Finset.range t.numofslots) (t.place heap)
  single : ∀ i < t.numofslots, ∀ j < t.numofslots, ∀ k, t.obj i = some k → t.obj j = some k → j = i
  clear : ∀ i < t.numofslots, t.obj i = none → t.refs i = 0
  count : t.slotused = t.used.card

/-- A node counts `c` references to `k`. -/
def Holds (t : RefTable) (k : SQObject) (c : Nat) : Prop :=
  ∃ i < t.numofslots, t.obj i = some k ∧ t.refs i = c

section
variable (t : RefTable) (i : Nat)

@[simp] theorem obj_setNode (n : RefNode) : (t.setNode i n).obj = Function.update t.obj i n.obj :=
  Function.comp_update RefNode.obj t.nodes i n

@[simp] theorem refs_setNode (n : RefNode) :
    (t.setNode i n).refs = Function.update t.refs i n.refs :=
  Function.comp_update RefNode.refs t.nodes i n

@[simp] theorem next_setNode (n : RefNode) :
    (t.setNode i n).next = Function.update t.next i n.next :=
  Function.comp_update RefNode.next t.nodes i n

@[simp] theorem obj_setRefs (c : Nat) : (t.setRefs i c).obj = t.obj :=
  (obj_setNode t i _).trans (Function.update_eq_self i t.obj)

@[simp] theorem refs_setRefs (c : Nat) : (t.setRefs i c).refs = Function.update t.refs i c :=
  refs_setNode t i _

@[simp] theorem next_setRefs (c : Nat) : (t.setRefs i c).next = t.next :=
  (next_setNode t i _).trans (Function.update_eq_self i t.next)

end

variable {heap : Heap} {t : RefTable}

theorem mem_used {i : Nat} : i ∈ t.used ↔ i < t.numofslots ∧ t.obj i ≠ none := by
  rw [used, Finset.mem_filter, Finset.mem_range]

theorem place_some {i : Nat} {k : SQObject} (h : t.obj i = some k) :
    t.place heap i = some (mainPosition heap t.numofslots (some k)) := by
  rw [place, h]
  rfl

theorem place_none {i : Nat} (h : t.obj i = none) : t.place heap i = none := by
  rw [place, h]
  rfl

theorem Filed.unique (h : Filed heap t) {k : SQObject} {c d : Nat} (hc : t.Holds k c)
    (hd : t.Holds k d) : c = d := by
  obtain ⟨i, hi, hk, rfl⟩ := hc
  obtain ⟨j, hj, hk', rfl⟩ := hd
  rw [h.single i hi j hj k hk hk']

/-- The count of a node with an object may change. -/
theorem Filed.setRefs (h : Filed heap t) {i : Nat} (hi : t.obj i ≠ none) (c : Nat) :
    Filed heap (t.setRefs i c) where
  pos := h.pos
  buckets := by
    have hplace : (t.setRefs i c).place heap = t.place heap := by
      funext j
      rw [place, obj_setRefs]
      rfl
    rw [next_setRefs, hplace]
    exact h.buckets
  single := by
    rw [obj_setRefs]
    exact h.single
  clear := by
    intro j hj hnone
    rw [obj_setRefs] at hnone
    have hne : j ≠ i := by
      rintro rfl
      exact hi hnone
    rw [refs_setRefs, Function.update_of_ne hne]
    exact h.clear j hj hnone
  count := by
    rw [used, obj_setRefs]
    exact h.count

/-! ## A new array -/

theorem alloc_chain (size j : Nat) :
    Chain (AllocNodes size).next (if j < size then some j else none)
      (List.range' j (size - j)) := by
  by_cases hj : j < size
  · rw [if_pos hj]
    have hlen : size - j = (size - (j + 1)) + 1 := by omega
    rw [hlen, List.range'_succ]
    exact .cons (alloc_chain size (j + 1))
  · rw [if_neg hj, Nat.sub_eq_zero_of_le (Nat.le_of_not_lt hj)]
    exact .nil
termination_by size - j

theorem filed_alloc (heap : Heap) {size : Nat} (hsize : 0 < size) :
    Filed heap (AllocNodes size) where
  pos := hsize
  buckets := by
    refine ⟨fun b => ?_⟩
    cases b with
    | none =>
      have hchain := alloc_chain size 0
      rw [if_pos hsize, Nat.sub_zero, ← List.range_eq_range'] at hchain
      refine ⟨List.range size, hchain, fun i => ?_⟩
      rw [List.mem_range, Finset.mem_range]
      exact iff_self_and.mpr fun _ => rfl
    | some mainpos => exact ⟨[], .nil, fun i => iff_of_false nofun fun h => nomatch h.2⟩
  single := fun _ _ _ _ _ => nofun
  clear := fun _ _ _ => rfl
  count := by
    have hnone : (AllocNodes size).used = ∅ :=
      Finset.filter_false_of_mem fun _ _ => not_not.mpr rfl
    rw [hnone]
    rfl

/-! ## `Add` -/

/-- What `Add` makes of a free node. -/
structure Added (heap : Heap) (t : RefTable) (k : SQObject) (u : RefTable) (i : Nat) : Prop where
  inside : i < t.numofslots
  free : t.obj i = none
  filed : Filed heap u
  obj : u.obj = Function.update t.obj i (some k)
  refs : u.refs = t.refs
  numofslots : u.numofslots = t.numofslots
  slotused : u.slotused = t.slotused + 1

/-- With room left there is a first node in the free list. -/
theorem Filed.freelist_spec (h : Filed heap t) (hroom : t.slotused < t.numofslots) :
    ∃ i < t.numofslots, t.freelist = some i ∧ t.obj i = none ∧
      Behind t.next (t.head none) none i := by
  obtain ⟨l, hchain, hmem⟩ := h.buckets.chain none
  cases l with
  | nil =>
    have hall : ∀ i ∈ Finset.range t.numofslots, t.obj i ≠ none := fun i hi hnone =>
      nomatch (hmem i).mpr ⟨hi, place_none hnone⟩
    have hcount := h.count
    rw [used, Finset.filter_true_of_mem hall, Finset.card_range] at hcount
    omega
  | cons i l =>
    obtain ⟨hi, hplace⟩ := (hmem i).mp List.mem_cons_self
    exact ⟨i, Finset.mem_range.mp hi, hchain.start, Option.map_eq_none_iff.mp hplace,
      [], l, hchain, rfl⟩

theorem Filed.add_spec (h : Filed heap t) {k : SQObject}
    (hk : ∀ i < t.numofslots, t.obj i ≠ some k) (hroom : t.slotused < t.numofslots) :
    ∃ u i, t.Add (mainPosition heap t.numofslots (some k)) k = some (u, i) ∧
      Added heap t k u i := by
  obtain ⟨i, hi, hfreelist, hfree, hbeh⟩ := h.freelist_spec hroom
  have hclear := h.clear i hi hfree
  refine ⟨_, i, by rw [Add, hfreelist]; exact if_pos hclear, ?_⟩
  set mainpos := mainPosition heap t.numofslots (some k) with hmainpos
  set u : RefTable := { t.setNode i ⟨some k, t.refs i, t.buckets mainpos⟩ with
    buckets := Function.update t.buckets mainpos (some i)
    freelist := t.next i
    slotused := t.slotused + 1 } with hu
  have hobj : u.obj = Function.update t.obj i (some k) := obj_setNode t i _
  have hrefs : u.refs = t.refs := (refs_setNode t i _).trans (Function.update_eq_self i t.refs)
  have hnext : u.next = Function.update t.next i (t.buckets mainpos) := next_setNode t i _
  have hother (j : Nat) (hj : j ≠ i) : u.obj j = t.obj j := by
    rw [hobj, Function.update_of_ne hj]
  have hself : u.obj i = some k := by rw [hobj, Function.update_self]
  refine ⟨hi, hfree, ⟨h.pos, ?_, ?_, ?_, ?_⟩, hobj, hrefs, rfl, rfl⟩
  · -- out of the free list, and into the bucket
    have hfirst : Behind t.next (t.head (t.place heap i)) none i := by
      rw [place_none hfree]
      exact hbeh
    have hout := h.buckets.behead hfirst
    rw [place_none hfree] at hout
    have hplace : ∀ j ∈ (Finset.range t.numofslots).erase i, u.place heap j = t.place heap j := by
      intro j hj
      rw [place, place, hother j (Finset.ne_of_mem_erase hj)]
      rfl
    have hin := (hout.congr (fun _ _ => rfl) hplace).push (Finset.notMem_erase i _)
      (place_some hself)
    rw [Finset.insert_erase (Finset.mem_range.mpr hi)] at hin
    have hhead : u.head = Function.update (Function.update t.head none (t.next i)) (some mainpos)
        (some i) := by
      funext b
      cases b with
      | none => rfl
      | some b =>
        by_cases hb : b = mainpos
        · rw [hb, Function.update_self]
          exact Function.update_self ..
        · rw [Function.update_of_ne (by simpa using hb), Function.update_of_ne (by simp)]
          exact Function.update_of_ne hb ..
    rw [hnext, hhead]
    exact hin
  · intro j hj j' hj' k' hk₁ hk₂
    by_cases h₁ : j = i <;> by_cases h₂ : j' = i
    · rw [h₁, h₂]
    · rw [h₁, hself] at hk₁
      rw [hother j' h₂, ← hk₁] at hk₂
      exact absurd hk₂ (hk j' hj')
    · rw [h₂, hself] at hk₂
      rw [hother j h₁, ← hk₂] at hk₁
      exact absurd hk₁ (hk j hj)
    · rw [hother j h₁] at hk₁
      rw [hother j' h₂] at hk₂
      exact h.single j hj j' hj' k' hk₁ hk₂
  · intro j hj hnone
    rw [hrefs]
    refine h.clear j hj ?_
    have hne : j ≠ i := by
      rintro rfl
      rw [hself] at hnone
      cases hnone
    rwa [hother j hne] at hnone
  · have hused : u.used = insert i t.used := by
      ext j
      rw [Finset.mem_insert, mem_used, mem_used]
      by_cases hj : j = i
      · rw [hj, hself]
        exact iff_of_true ⟨hi, nofun⟩ (.inl rfl)
      · rw [hother j hj, or_iff_right hj]
        rfl
    have hnot : i ∉ t.used := fun hin => (mem_used.mp hin).2 hfree
    rw [hused, Finset.card_insert_of_notMem hnot, ← h.count]

theorem Added.holds {u : RefTable} {i : Nat} {k : SQObject} (ha : Added heap t k u i) (c : Nat)
    (k' : SQObject) (d : Nat) :
    (u.setRefs i c).Holds k' d ↔ k' = k ∧ d = c ∨ t.Holds k' d := by
  have hfield (j : Nat) : (u.setRefs i c).obj j = if j = i then some k else t.obj j := by
    rw [obj_setRefs, ha.obj, Function.update_apply]
  have hcount (j : Nat) : (u.setRefs i c).refs j = if j = i then c else t.refs j := by
    rw [refs_setRefs, ha.refs, Function.update_apply]
  constructor
  · rintro ⟨j, hj, hk, hd⟩
    rw [hfield] at hk
    rw [hcount] at hd
    by_cases hji : j = i
    · rw [if_pos hji] at hk hd
      exact .inl ⟨(Option.some.inj hk).symm, hd.symm⟩
    · rw [if_neg hji] at hk hd
      exact .inr ⟨j, ha.numofslots ▸ hj, hk, hd⟩
  · rintro (⟨rfl, rfl⟩ | ⟨j, hj, hk, hd⟩)
    · refine ⟨i, ha.numofslots ▸ ha.inside, ?_, ?_⟩
      · rw [hfield, if_pos rfl]
      · rw [hcount, if_pos rfl]
    · have hji : j ≠ i := by
        rintro rfl
        rw [ha.free] at hk
        cases hk
      refine ⟨j, ha.numofslots ▸ hj, ?_, ?_⟩
      · rw [hfield, if_neg hji, hk]
      · rw [hcount, if_neg hji, hd]

/-! ## `Resize` -/

/-- The first `n` nodes are in the new array. -/
structure Moved (heap : Heap) (t : RefTable) (size n : Nat) (u : RefTable) : Prop where
  filed : Filed heap u
  numofslots : u.numofslots = size
  slotused : u.slotused = n
  holds : ∀ k c, u.Holds k c ↔ ∃ i < n, t.obj i = some k ∧ t.refs i = c

/-- Every node of a full array has an object, and counts something. -/
structure Full (t : RefTable) : Prop where
  obj : ∀ i < t.numofslots, t.obj i ≠ none
  refs : ∀ i < t.numofslots, t.refs i ≠ 0

theorem Filed.moveNodes (h : Filed heap t) (hfull : Full t) {size : Nat}
    (hsize : t.numofslots ≤ size) {n : Nat} (hn : n ≤ t.numofslots) :
    ∃ u, (List.range n).foldlM (t.addBack heap) (AllocNodes size, 0) = some (u, n) ∧
      Moved heap t size n u := by
  induction n with
  | zero =>
    have hpos : 0 < size := Nat.lt_of_lt_of_le h.pos hsize
    refine ⟨AllocNodes size, rfl, filed_alloc heap hpos, rfl, rfl, fun k c => ?_⟩
    exact iff_of_false (fun ⟨_, _, hk, _⟩ => nomatch hk) fun ⟨_, hi, _⟩ => nomatch hi
  | succ n ih =>
    obtain ⟨u, hfold, hu⟩ := ih (Nat.le_of_succ_le hn)
    obtain ⟨k, hk⟩ := Option.ne_none_iff_exists'.mp (hfull.obj n hn)
    -- an object that is in the new array was in an earlier node
    have hnew : ∀ j < u.numofslots, u.obj j ≠ some k := by
      intro j hj hkj
      obtain ⟨i, hi, hki, -⟩ := (hu.holds k _).mp ⟨j, hj, hkj, rfl⟩
      have heq := h.single i (Nat.lt_of_lt_of_le hi (Nat.le_of_succ_le hn)) n hn k hki hk
      omega
    have hroom : u.slotused < u.numofslots := by
      rw [hu.slotused, hu.numofslots]
      omega
    obtain ⟨w, i, hadd, ha⟩ := hu.filed.add_spec hnew hroom
    refine ⟨w.setRefs i (t.refs n), ?_, ha.filed.setRefs ?_ _, ?_, ?_, fun k' c => ?_⟩
    · rw [List.range_succ, List.foldlM_append, hfold]
      simp [addBack, hk, hfull.refs n hn, hadd]
    · rw [ha.obj, Function.update_self]
      exact Option.some_ne_none k
    · exact ha.numofslots.trans hu.numofslots
    · exact ha.slotused.trans (congrArg (· + 1) hu.slotused)
    · rw [ha.holds, hu.holds]
      constructor
      · rintro (⟨rfl, rfl⟩ | ⟨j, hj, hkj, hc⟩)
        · exact ⟨n, Nat.lt_succ_self n, hk, rfl⟩
        · exact ⟨j, Nat.lt_succ_of_lt hj, hkj, hc⟩
      · rintro ⟨j, hj, hkj, hc⟩
        rcases Nat.lt_succ_iff_lt_or_eq.mp hj with hj | rfl
        · exact .inr ⟨j, hj, hkj, hc⟩
        · rw [hk] at hkj
          exact .inl ⟨(Option.some.inj hkj).symm, hc.symm⟩

/-- **`Resize` keeps every object with its count.** -/
theorem Filed.resize_spec (h : Filed heap t) (hfull : Full t) {size : Nat}
    (hsize : t.numofslots ≤ size) :
    ∃ u, t.Resize heap size = some u ∧ Filed heap u ∧ u.numofslots = size ∧
      u.slotused = t.numofslots ∧ ∀ k c, u.Holds k c ↔ t.Holds k c := by
  obtain ⟨u, hfold, hu⟩ := h.moveNodes hfull hsize (Nat.le_refl _)
  refine ⟨u, ?_, hu.filed, hu.numofslots, hu.slotused, hu.holds⟩
  rw [Resize, hfold]
  exact if_pos rfl

/-! ## `AddRef`, `GetRefCount` and `Release` -/

/-- Between two calls every object is counted at least once. -/
structure Inv (heap : Heap) (t : RefTable) : Prop extends Filed heap t where
  held : ∀ i < t.numofslots, t.obj i ≠ none → t.refs i ≠ 0

theorem used_le (t : RefTable) : t.used.card ≤ t.numofslots :=
  (Finset.card_filter_le _ _).trans_eq (Finset.card_range _)

/-- When all nodes are used the free list is empty. -/
theorem Inv.full_spec (h : Inv heap t) (hall : t.numofslots = t.slotused) :
    t.freelist = none ∧ Full t := by
  have hcard : (Finset.range t.numofslots).card ≤ t.used.card := by
    rw [← h.count, Finset.card_range, ← hall]
  have hused : t.used = Finset.range t.numofslots :=
    Finset.eq_of_subset_of_card_le (Finset.filter_subset _ _) hcard
  have hobj : ∀ i < t.numofslots, t.obj i ≠ none := by
    intro i hi
    have hin : i ∈ t.used := by rwa [hused, Finset.mem_range]
    exact (mem_used.mp hin).2
  refine ⟨?_, hobj, fun i hi => h.held i hi (hobj i hi)⟩
  obtain ⟨l, hchain, hmem⟩ := h.buckets.chain none
  cases l with
  | nil => exact hchain.start
  | cons i l =>
    obtain ⟨hi, hplace⟩ := (hmem i).mp List.mem_cons_self
    exact absurd (Option.map_eq_none_iff.mp hplace) (hobj i (Finset.mem_range.mp hi))

theorem Filed.find_spec (h : Filed heap t) (k : SQObject) :
    (∃ prev, t.find heap k = some (prev, none) ∧ ∀ i < t.numofslots, t.obj i ≠ some k) ∨
    (∃ prev i, t.find heap k = some (prev, some i) ∧ i < t.numofslots ∧ t.obj i = some k ∧
      Behind t.next (t.head (t.place heap i)) prev i) := by
  rcases h.buckets.seek_spec (fun i => t.obj i == some k)
    (some (mainPosition heap t.numofslots (some k))) (le_of_eq (Finset.card_range t.numofslots))
    with ⟨prev, hseek, hno⟩ | ⟨prev, i, hseek, hi, hplace, hk, hbeh⟩
  · refine .inl ⟨prev, hseek, fun i hi hk => ?_⟩
    have hfalse := hno i (Finset.mem_range.mpr hi) (place_some hk)
    rw [hk, beq_self_eq_true] at hfalse
    cases hfalse
  · refine .inr ⟨prev, i, hseek, Finset.mem_range.mp hi, beq_iff_eq.mp hk, ?_⟩
    rw [hplace]
    exact hbeh

/-- What `Get` with `add` leads to: the node of the object, with its count or 0. -/
structure Got (heap : Heap) (t : RefTable) (k : SQObject) (u : RefTable) (i : Nat) : Prop where
  filed : Filed heap u
  obj : u.obj i = some k
  old : ∀ c, t.Holds k c → u.refs i = c
  new : (∀ c, ¬ t.Holds k c) → u.refs i = 0
  holds : ∀ c k' d, (u.setRefs i c).Holds k' d ↔ k' = k ∧ d = c ∨ k' ≠ k ∧ t.Holds k' d

theorem Filed.got_found (h : Filed heap t) {k : SQObject} {i : Nat} (hi : i < t.numofslots)
    (hk : t.obj i = some k) : Got heap t k t i where
  filed := h
  obj := hk
  old := fun _ hc => h.unique ⟨i, hi, hk, rfl⟩ hc
  new := fun hno => absurd ⟨i, hi, hk, rfl⟩ (hno (t.refs i))
  holds := by
    intro c k' d
    unfold Holds
    rw [obj_setRefs, refs_setRefs]
    constructor
    · rintro ⟨j, hj, hkj, hd⟩
      by_cases hji : j = i
      · rw [hji, Function.update_self] at hd
        rw [hji, hk] at hkj
        exact .inl ⟨(Option.some.inj hkj).symm, hd.symm⟩
      · rw [Function.update_of_ne hji] at hd
        refine .inr ⟨fun heq => hji ?_, j, hj, hkj, hd⟩
        exact h.single i hi j hj k hk (heq ▸ hkj)
    · rintro (⟨rfl, rfl⟩ | ⟨hne, j, hj, hkj, hd⟩)
      · exact ⟨i, hi, hk, Function.update_self ..⟩
      · have hji : j ≠ i := by
          rintro rfl
          exact hne (Option.some.inj (hkj.symm.trans hk))
        exact ⟨j, hj, hkj, (Function.update_of_ne hji ..).trans hd⟩

theorem got_added {w u : RefTable} {k : SQObject} {i : Nat} (hw : Filed heap w)
    (hno : ∀ j < t.numofslots, t.obj j ≠ some k) (hsame : ∀ k c, w.Holds k c ↔ t.Holds k c)
    (ha : Added heap w k u i) : Got heap t k u i where
  filed := ha.filed
  obj := by rw [ha.obj, Function.update_self]
  old := fun _ ⟨j, hj, hkj, _⟩ => absurd hkj (hno j hj)
  new := fun _ => by rw [ha.refs, hw.clear i ha.inside ha.free]
  holds := by
    intro c k' d
    rw [ha.holds, hsame]
    refine or_congr_right (iff_and_self.mpr ?_)
    rintro ⟨j, hj, hkj, -⟩ rfl
    exact hno j hj hkj

/-- **`Get` with `add` gives the node of the object**, a new one when there is none. -/
theorem Inv.findOrAdd_spec (h : Inv heap t) (k : SQObject) :
    ∃ u i, t.findOrAdd heap k = some (u, i) ∧ Got heap t k u i := by
  rcases h.find_spec k with ⟨prev, hfind, hno⟩ | ⟨prev, i, hfind, hi, hk, -⟩
  · rw [findOrAdd]
    simp only [hfind, Option.bind_eq_bind, Option.bind_some]
    by_cases hall : t.numofslots = t.slotused
    · obtain ⟨hnone, hfull⟩ := h.full_spec hall
      obtain ⟨w, hresize, hw, hslots, hused, hsame⟩ :=
        h.resize_spec hfull (Nat.le_mul_of_pos_right t.numofslots Nat.two_pos)
      have hno' : ∀ j < w.numofslots, w.obj j ≠ some k := by
        intro j hj hkj
        obtain ⟨i, hi, hki, -⟩ := (hsame k _).mp ⟨j, hj, hkj, rfl⟩
        exact hno i hi hki
      have hpos : 0 < t.numofslots := h.pos
      have hroom : w.slotused < w.numofslots := by
        rw [hused, hslots]
        omega
      obtain ⟨u, i, hadd, ha⟩ := hw.add_spec hno' hroom
      refine ⟨u, i, ?_, got_added hw hno hsame ha⟩
      rw [if_pos hall, if_pos hnone, hresize]
      exact hadd
    · have hle : t.slotused ≤ t.numofslots := by
        rw [h.count]
        exact t.used_le
      obtain ⟨u, i, hadd, ha⟩ := h.add_spec hno (Nat.lt_of_le_of_ne hle (Ne.symm hall))
      refine ⟨u, i, ?_, got_added h.toFiled hno (fun _ _ => Iff.rfl) ha⟩
      rw [if_neg hall]
      exact hadd
  · refine ⟨t, i, ?_, h.got_found hi hk⟩
    rw [findOrAdd]
    simp only [hfind, Option.bind_eq_bind, Option.bind_some]
    rfl

/-! ## The free list takes a node back -/

theorem Filed.unhook_spec (h : Filed heap t) {i : Nat} {k : SQObject} (hk : t.obj i = some k)
    {prev : Option Nat} (hbeh : Behind t.next (t.head (t.place heap i)) prev i) {w : RefTable}
    (hw : w = t.unhook (mainPosition heap t.numofslots (some k)) prev i) :
    w.obj = t.obj ∧ w.refs = t.refs ∧ w.numofslots = t.numofslots ∧ w.slotused = t.slotused ∧
      Buckets w.next w.head ((Finset.range t.numofslots).erase i) (t.place heap) := by
  subst hw
  cases prev with
  | some q =>
    refine ⟨?_, ?_, rfl, rfl, ?_⟩
    · exact (obj_setNode t q _).trans (Function.update_eq_self q t.obj)
    · exact (refs_setNode t q _).trans (Function.update_eq_self q t.refs)
    · have hnext : (t.unhook (mainPosition heap t.numofslots (some k)) (some q) i).next =
          Function.update t.next q (t.next i) := next_setNode t q _
      rw [hnext]
      exact h.buckets.unlink hbeh
  | none =>
    refine ⟨rfl, rfl, rfl, rfl, ?_⟩
    have hout := h.buckets.behead hbeh
    rw [place_some hk] at hout
    have hhead : (t.unhook (mainPosition heap t.numofslots (some k)) none i).head =
        Function.update t.head (some (mainPosition heap t.numofslots (some k))) (t.next i) := by
      funext b
      cases b with
      | none => rfl
      | some b =>
        by_cases hb : b = mainPosition heap t.numofslots (some k)
        · rw [hb, Function.update_self]
          exact Function.update_self ..
        · rw [Function.update_of_ne (by simpa using hb)]
          exact Function.update_of_ne hb ..
    rw [hhead]
    exact hout

/-- **A node without references is free again**, and no other object is touched. -/
theorem Filed.free_spec (h : Filed heap t) {i : Nat} {k : SQObject} (hi : i < t.numofslots)
    (hk : t.obj i = some k) (hzero : t.refs i = 0) {prev : Option Nat}
    (hbeh : Behind t.next (t.head (t.place heap i)) prev i) :
    Filed heap (t.free (mainPosition heap t.numofslots (some k)) prev i) ∧
      ∀ k' d, (t.free (mainPosition heap t.numofslots (some k)) prev i).Holds k' d ↔
        k' ≠ k ∧ t.Holds k' d := by
  have hspec := h.unhook_spec hk hbeh rfl
  rw [free]
  revert hspec
  generalize t.unhook (mainPosition heap t.numofslots (some k)) prev i = w
  rintro ⟨hobj, hrefs, hslots, hslotused, hbuckets⟩
  set u : RefTable := { w.setNode i ⟨none, w.refs i, w.freelist⟩ with
    freelist := some i, slotused := w.slotused - 1 } with hu
  have hother (j : Nat) (hj : j ≠ i) : u.obj j = t.obj j := by
    rw [← hobj]
    exact (congrFun (obj_setNode w i _) j).trans (Function.update_of_ne hj ..)
  have hself : u.obj i = none := (congrFun (obj_setNode w i _) i).trans (Function.update_self ..)
  have hcount : u.refs = t.refs := by
    rw [← hrefs]
    exact (refs_setNode w i _).trans (Function.update_eq_self i w.refs)
  have hnext : u.next = Function.update w.next i (w.head none) := next_setNode w i _
  have hnum : u.numofslots = t.numofslots := hslots
  refine ⟨⟨hnum ▸ h.pos, ?_, ?_, ?_, ?_⟩, fun k' d => ?_⟩
  · have hplace : ∀ j ∈ (Finset.range t.numofslots).erase i, u.place heap j = t.place heap j := by
      intro j hj
      rw [place, place, hother j (Finset.ne_of_mem_erase hj), hnum]
    have hin := (hbuckets.congr (fun _ _ => rfl) hplace).push (Finset.notMem_erase i _)
      (place_none hself)
    rw [Finset.insert_erase (Finset.mem_range.mpr hi)] at hin
    have hhead : u.head = Function.update w.head none (some i) := by
      funext b
      cases b with
      | none => rfl
      | some b => exact (Function.update_of_ne (Option.some_ne_none b) ..).symm
    rw [hnext, hhead, hnum]
    exact hin
  · intro j hj j' hj' k' hk₁ hk₂
    have h₁ : j ≠ i := by
      rintro rfl
      rw [hself] at hk₁
      cases hk₁
    have h₂ : j' ≠ i := by
      rintro rfl
      rw [hself] at hk₂
      cases hk₂
    rw [hother j h₁] at hk₁
    rw [hother j' h₂] at hk₂
    exact h.single j (hnum ▸ hj) j' (hnum ▸ hj') k' hk₁ hk₂
  · intro j hj hnone
    rw [hcount]
    by_cases hji : j = i
    · rw [hji, hzero]
    · rw [hother j hji] at hnone
      exact h.clear j (hnum ▸ hj) hnone
  · have hused : u.used = t.used.erase i := by
      ext j
      rw [Finset.mem_erase, mem_used, mem_used, hnum]
      by_cases hji : j = i
      · rw [hji]
        exact iff_of_false (fun hin => hin.2 hself) fun hin => hin.1 rfl
      · rw [hother j hji, and_iff_right hji]
    have hin : i ∈ t.used := mem_used.mpr ⟨hi, by rw [hk]; exact Option.some_ne_none k⟩
    rw [hused, Finset.card_erase_of_mem hin, ← h.count, ← hslotused]
  · constructor
    · rintro ⟨j, hj, hkj, hd⟩
      have hji : j ≠ i := by
        rintro rfl
        rw [hself] at hkj
        cases hkj
      rw [hother j hji] at hkj
      rw [hcount] at hd
      refine ⟨fun heq => hji ?_, j, hnum ▸ hj, hkj, hd⟩
      exact h.single i hi j (hnum ▸ hj) k hk (heq ▸ hkj)
    · rintro ⟨hne, j, hj, hkj, hd⟩
      have hji : j ≠ i := by
        rintro rfl
        exact hne (Option.some.inj (hkj.symm.trans hk))
      refine ⟨j, hnum ▸ hj, ?_, ?_⟩
      · rw [hother j hji, hkj]
      · rw [hcount, hd]

end RefTable

end Autocom.Squirrel
