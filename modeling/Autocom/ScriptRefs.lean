import Autocom.Lib.Lts
import Autocom.RefTable

/-! # What holds a compiled script

`sq_addref`, `sq_release` and `sq_getrefcount` count references: whatever is called,
in whatever order, the table is the count of each object. `MyScript` adds a reference
when it is made or copied and takes it back when it is reset or destroyed, and so a
closure is in the table exactly while an object holds it. -/
namespace Autocom.Squirrel
open Autocom.Lib.Lts RefTable

/-! ## The calls of the host -/

/-- `type & SQOBJECT_REF_COUNTED`. -/
def ISREFCOUNTED : SQObjectType → Bool
  | .OT_INTEGER | .OT_FLOAT | .OT_BOOL | .OT_USERPOINTER => false
  | _ => true

/-- The object, when it is counted at all. -/
def counted (po : SQObjectPtr) : Option SQObject := po.filter fun o => ISREFCOUNTED o.type

section
variable (heap : Heap)

def sq_addref (t : RefTable) (po : SQObjectPtr) : Option RefTable :=
  match counted po with
  | none => some t
  | some o => t.AddRef heap o

def sq_getrefcount (t : RefTable) (po : SQObjectPtr) : Option (RefTable × Nat) :=
  match counted po with
  | none => some (t, 0)
  | some o => t.GetRefCount heap o

def sq_release (t : RefTable) (po : SQObjectPtr) : Option (RefTable × Bool) :=
  match counted po with
  | none => some (t, true)
  | some o => t.Release heap o

end

/-- The table counts `m`. -/
structure Counts (heap : Heap) (t : RefTable) (m : SQObject → Nat) : Prop where
  inv : RefTable.Inv heap t
  holds : ∀ k c, t.Holds k c ↔ m k = c ∧ c ≠ 0

variable {heap : Heap} {t : RefTable} {m : SQObject → Nat}

theorem counts_create (heap : Heap) : Counts heap Create fun _ => 0 := by
  refine ⟨⟨filed_alloc heap (Nat.succ_pos 3), fun _ _ h => absurd rfl h⟩, fun k c => ?_⟩
  exact iff_of_false (fun ⟨_, _, hk, _⟩ => nomatch hk) fun h => h.2 h.1.symm

/-- A table that holds what it should counts nothing 0 times. -/
theorem counts_of_holds (hfiled : Filed heap t) (h : ∀ k c, t.Holds k c ↔ m k = c ∧ c ≠ 0) :
    Counts heap t m := by
  refine ⟨⟨hfiled, fun i hi hobj => ?_⟩, h⟩
  obtain ⟨k, hk⟩ := Option.ne_none_iff_exists'.mp hobj
  exact ((h k _).mp ⟨i, hi, hk, rfl⟩).2

theorem RefTable.Got.refs_eq (h : Counts heap t m) {k : SQObject} {u : RefTable} {i : Nat}
    (hgot : Got heap t k u i) : u.refs i = m k := by
  by_cases hzero : m k = 0
  · rw [hzero]
    refine hgot.new fun c hc => ?_
    obtain ⟨hm, hne⟩ := (h.holds k c).mp hc
    exact hne (hm.symm.trans hzero)
  · exact hgot.old _ ((h.holds k _).mpr ⟨rfl, hzero⟩)

theorem RefTable.Got.counts (h : Counts heap t m) {k : SQObject} {u : RefTable} {i c : Nat}
    (hgot : Got heap t k u i) (hc : c ≠ 0) :
    Counts heap (u.setRefs i c) (Function.update m k c) := by
  have hobj : u.obj i ≠ none := by
    rw [hgot.obj]
    exact Option.some_ne_none k
  refine counts_of_holds (hgot.filed.setRefs hobj c) fun k' d => ?_
  rw [hgot.holds, h.holds]
  by_cases hk : k' = k
  · rw [hk, Function.update_self]
    constructor
    · rintro (⟨-, rfl⟩ | ⟨hne, -⟩)
      · exact ⟨rfl, hc⟩
      · exact absurd rfl hne
    · exact fun hd => .inl ⟨rfl, hd.1.symm⟩
  · rw [Function.update_of_ne hk, or_iff_right fun heq => hk heq.1, and_iff_right hk]

theorem Counts.addRef (h : Counts heap t m) (k : SQObject) :
    ∃ u, t.AddRef heap k = some u ∧ Counts heap u (Function.update m k (m k + 1)) := by
  obtain ⟨u, i, hfind, hgot⟩ := h.inv.findOrAdd_spec k
  refine ⟨u.setRefs i (m k + 1), ?_, hgot.counts h (Nat.succ_ne_zero _)⟩
  rw [AddRef, hfind]
  simp only [Option.bind_eq_bind, Option.bind_some, hgot.refs_eq h]
  rfl

/-- The node of an object that is held. -/
theorem Counts.find (h : Counts heap t m) {k : SQObject} (hk : m k ≠ 0) :
    ∃ prev i, t.find heap k = some (prev, some i) ∧ i < t.numofslots ∧ t.obj i = some k ∧
      t.refs i = m k ∧ Lib.Chains.Behind t.next (t.head (t.place heap i)) prev i := by
  obtain ⟨j, hj, hkj, -⟩ := (h.holds k (m k)).mpr ⟨rfl, hk⟩
  rcases h.inv.find_spec k with ⟨prev, -, hno⟩ | ⟨prev, i, hfind, hi, hki, hbeh⟩
  · exact absurd hkj (hno j hj)
  · exact ⟨prev, i, hfind, hi, hki, ((h.holds k _).mp ⟨i, hi, hki, rfl⟩).1.symm, hbeh⟩

theorem Counts.getRefCount (h : Counts heap t m) {k : SQObject} (hk : m k ≠ 0) :
    t.GetRefCount heap k = some (t, m k) := by
  obtain ⟨prev, i, hfind, -, -, hrefs, -⟩ := h.find hk
  rw [GetRefCount, findOrAdd]
  simp only [hfind, Option.bind_eq_bind, Option.bind_some]
  exact congrArg (fun c => some (t, c)) hrefs

theorem Counts.release (h : Counts heap t m) {k : SQObject} (hk : m k ≠ 0) :
    ∃ u, t.Release heap k = some (u, decide (m k = 1)) ∧
      Counts heap u (Function.update m k (m k - 1)) := by
  obtain ⟨prev, i, hfind, hi, hki, hrefs, hbeh⟩ := h.find hk
  have hgot := h.inv.got_found hi hki
  obtain ⟨n, hn⟩ := Nat.exists_eq_succ_of_ne_zero hk
  have hobj : t.obj i ≠ none := by
    rw [hki]
    exact Option.some_ne_none k
  have hdec : decrement (t.refs i) = n := by rw [hrefs, hn]; rfl
  rw [Release]
  simp only [hfind, Option.bind_eq_bind, Option.bind_some, hdec]
  rw [hn]
  by_cases hzero : n = 0
  · subst hzero
    have hbehind : Lib.Chains.Behind (t.setRefs i 0).next
        ((t.setRefs i 0).head ((t.setRefs i 0).place heap i)) prev i := by
      have hplace : (t.setRefs i 0).place heap i = t.place heap i := by
        rw [place, obj_setRefs]
        rfl
      rw [next_setRefs, hplace]
      exact hbeh
    have hrefs' : (t.setRefs i 0).refs i = 0 := by rw [refs_setRefs, Function.update_self]
    have hki' : (t.setRefs i 0).obj i = some k := by rw [obj_setRefs, hki]
    obtain ⟨hfiled, hholds⟩ :=
      (h.inv.setRefs hobj 0).free_spec hi hki' hrefs' hbehind
    rw [if_pos rfl]
    refine ⟨_, rfl, counts_of_holds hfiled fun k' d => ?_⟩
    rw [hholds, hgot.holds]
    by_cases hk' : k' = k
    · rw [hk', Function.update_self]
      exact iff_of_false (fun hd => hd.1 rfl) fun hd => hd.2 hd.1.symm
    · rw [Function.update_of_ne hk', ← h.holds, and_iff_right hk', or_iff_right fun heq =>
        hk' heq.1, and_iff_right hk']
  · rw [if_neg hzero]
    refine ⟨t.setRefs i n, ?_, hgot.counts h hzero⟩
    rw [decide_eq_false (by omega)]
    rfl

/-! ## Every sequence of calls -/

inductive RefOp
  | addref (po : SQObjectPtr)
  | getrefcount (po : SQObjectPtr)
  | release (po : SQObjectPtr)
  deriving DecidableEq

inductive RefAnswer
  | void
  | count (n : Nat)
  | last (b : Bool)
  deriving DecidableEq

def RefTable.call (heap : Heap) (t : RefTable) : RefOp → Option (RefTable × RefAnswer)
  | .addref po => do
    let t ← sq_addref heap t po
    return (t, .void)
  | .getrefcount po => do
    let (t, n) ← sq_getrefcount heap t po
    return (t, .count n)
  | .release po => do
    let (t, b) ← sq_release heap t po
    return (t, .last b)

def RefTable.calls (heap : Heap) (t : RefTable) : List RefOp → Option (RefTable × List RefAnswer)
  | [] => some (t, [])
  | op :: ops => do
    let (t, a) ← t.call heap op
    let (t, as) ← t.calls heap ops
    return (t, a :: as)

/-- The references to each object. -/
abbrev Refs : Type := SQObject → Nat

def Refs.call (m : Refs) (op : RefOp) : Refs × RefAnswer :=
  match op with
  | .addref po =>
    match counted po with
    | none => (m, .void)
    | some k => (Function.update m k (m k + 1), .void)
  | .getrefcount po =>
    match counted po with
    | none => (m, .count 0)
    | some k => (m, .count (m k))
  | .release po =>
    match counted po with
    | none => (m, .last true)
    | some k => (Function.update m k (m k - 1), .last (decide (m k = 1)))

def Refs.calls (m : Refs) : List RefOp → Refs × List RefAnswer
  | [] => (m, [])
  | op :: ops =>
    let (m, a) := m.call op
    let (m, as) := m.calls ops
    (m, a :: as)

/-- Only what is held is released or asked for. -/
def Refs.Allows (m : Refs) : RefOp → Prop
  | .addref _ => True
  | .getrefcount po | .release po => ∀ k, counted po = some k → m k ≠ 0

def Refs.AllowsAll (m : Refs) : List RefOp → Prop
  | [] => True
  | op :: ops => m.Allows op ∧ (m.call op).1.AllowsAll ops

theorem Counts.sq_addref {m : Refs} (h : Counts heap t m) (po : SQObjectPtr) :
    ∃ u, Squirrel.sq_addref heap t po = some u ∧ Counts heap u (m.call (.addref po)).1 := by
  rw [Squirrel.sq_addref, Refs.call]
  cases counted po with
  | none => exact ⟨t, rfl, h⟩
  | some k => exact h.addRef k

theorem Counts.sq_release {m : Refs} (h : Counts heap t m) (po : SQObjectPtr)
    (hop : m.Allows (.release po)) :
    ∃ u b, Squirrel.sq_release heap t po = some (u, b) ∧
      (m.call (.release po)).2 = .last b ∧ Counts heap u (m.call (.release po)).1 := by
  rw [Squirrel.sq_release, Refs.call]
  cases hk : counted po with
  | none => exact ⟨t, true, rfl, rfl, h⟩
  | some k =>
    obtain ⟨u, hrel, hu⟩ := h.release (hop k hk)
    exact ⟨u, _, hrel, rfl, hu⟩

theorem Counts.call {m : Refs} (h : Counts heap t m) (op : RefOp) (hop : m.Allows op) :
    ∃ u, t.call heap op = some (u, (m.call op).2) ∧ Counts heap u (m.call op).1 := by
  cases op with
  | addref po =>
    obtain ⟨u, hadd, hu⟩ := h.sq_addref po
    refine ⟨u, ?_, hu⟩
    rw [RefTable.call, hadd, Refs.call]
    cases counted po <;> rfl
  | getrefcount po =>
    rw [RefTable.call, sq_getrefcount, Refs.call]
    cases hk : counted po with
    | none => exact ⟨t, rfl, h⟩
    | some k =>
      refine ⟨t, ?_, h⟩
      simp only [h.getRefCount (hop k hk)]
      rfl
  | release po =>
    obtain ⟨u, b, hrel, hb, hu⟩ := h.sq_release po hop
    refine ⟨u, ?_, hu⟩
    rw [RefTable.call, hrel, hb]
    rfl

theorem Counts.calls {m : Refs} (h : Counts heap t m) (ops : List RefOp)
    (hops : m.AllowsAll ops) :
    ∃ u, t.calls heap ops = some (u, (m.calls ops).2) ∧ Counts heap u (m.calls ops).1 := by
  induction ops generalizing t m with
  | nil => exact ⟨t, rfl, h⟩
  | cons op ops ih =>
    obtain ⟨hop, hrest⟩ := hops
    obtain ⟨w, hcall, hw⟩ := h.call op hop
    obtain ⟨u, hcalls, hu⟩ := ih hw hrest
    refine ⟨u, ?_, hu⟩
    rw [RefTable.calls, hcall]
    simp only [Option.bind_eq_bind, Option.bind_some, hcalls]
    rfl

/-- The table, and `_obj` of each object that is alive. -/
structure ScriptEnv where
  table : RefTable
  objs : List SQObjectPtr

inductive ScriptOp
  | compile (closure : SQObjectPtr)
  | copy (i : Nat)
  | reset (i : Nat)
  | destroy (i : Nat)
  | host (op : RefOp)
  deriving DecidableEq

section
variable (heap : Heap)

/-- `MyScript(vm, o)`. -/
def ScriptEnv.make (s : ScriptEnv) (o : SQObjectPtr) : Option ScriptEnv := do
  let table ← sq_addref heap s.table o
  return ⟨table, s.objs ++ [o]⟩

/-- `sq_release` in `reset()`. -/
def ScriptEnv.letGo (s : ScriptEnv) (o : SQObjectPtr) : Option RefTable :=
  if o = none then some s.table
  else do
    let (table, _) ← sq_release heap s.table o
    return table

/-- `none`: there is no such object, or an assertion fails. -/
def ScriptEnv.step (s : ScriptEnv) : ScriptOp → Option ScriptEnv
  | .compile closure => s.make heap closure
  | .copy i => do s.make heap (← s.objs[i]?)
  | .reset i => do
    let table ← s.letGo heap (← s.objs[i]?)
    return ⟨table, s.objs.set i none⟩
  | .destroy i => do
    let table ← s.letGo heap (← s.objs[i]?)
    return ⟨table, s.objs.eraseIdx i⟩
  | .host op => do
    let (table, _) ← s.table.call heap op
    return ⟨table, s.objs⟩

end

/-- Who holds what: the host beside the objects, and `_obj` of each of them. -/
structure Owners where
  host : Refs
  objs : List SQObjectPtr

/-- The host releases, and asks for, what it holds itself. -/
def Owners.step (s : Owners) : ScriptOp → Option Owners
  | .compile closure => some ⟨s.host, s.objs ++ [closure]⟩
  | .copy i => s.objs[i]?.map fun o => ⟨s.host, s.objs ++ [o]⟩
  | .reset i => if i < s.objs.length then some ⟨s.host, s.objs.set i none⟩ else none
  | .destroy i => if i < s.objs.length then some ⟨s.host, s.objs.eraseIdx i⟩ else none
  | .host op =>
    match op with
    | .addref _ => some ⟨(s.host.call op).1, s.objs⟩
    | .getrefcount po | .release po =>
      if (counted po).all fun k => s.host k ≠ 0 then some ⟨(s.host.call op).1, s.objs⟩ else none

/-- How many of the objects hold `k`. -/
def holders (objs : List SQObjectPtr) (k : SQObject) : Nat :=
  objs.countP fun o => counted o = some k

def Owners.refs (s : Owners) : Refs := fun k => s.host k + holders s.objs k

theorem holders_append (objs : List SQObjectPtr) (o : SQObjectPtr) (k : SQObject) :
    holders (objs ++ [o]) k = holders objs k + if counted o = some k then 1 else 0 := by
  rw [holders, List.countP_append, List.countP_singleton]
  simp [holders]

theorem holders_set {objs : List SQObjectPtr} {i : Nat} (hi : i < objs.length) (k : SQObject) :
    holders objs k = holders (objs.set i none) k + if counted objs[i] = some k then 1 else 0 := by
  have hle : (if counted objs[i] = some k then 1 else 0) ≤ holders objs k := by
    have hcount := List.boole_getElem_le_countP (p := fun o => decide (counted o = some k)) hi
    simpa [holders] using hcount
  have hset : holders (objs.set i none) k =
      holders objs k - (if counted objs[i] = some k then 1 else 0) := by
    rw [holders, List.countP_set hi]
    simp [holders, counted]
  omega

theorem holders_erase {objs : List SQObjectPtr} {i : Nat} (hi : i < objs.length) (k : SQObject) :
    holders objs k = holders (objs.eraseIdx i) k + if counted objs[i] = some k then 1 else 0 := by
  have hperm := List.getElem_cons_eraseIdx_perm hi
  rw [holders, ← hperm.countP_eq, List.countP_cons]
  simp [holders]

theorem refs_append (host : Refs) (objs : List SQObjectPtr) (o : SQObjectPtr) :
    Owners.refs ⟨host, objs ++ [o]⟩ = (Refs.call (Owners.refs ⟨host, objs⟩) (.addref o)).1 := by
  funext k
  rw [Owners.refs, holders_append, Refs.call]
  cases hk : counted o with
  | none => rfl
  | some k₀ =>
    dsimp only
    by_cases heq : k = k₀
    · rw [heq, Function.update_self, if_pos rfl]
      rfl
    · rw [Function.update_of_ne heq, if_neg fun h => heq (Option.some.inj h).symm]
      rfl

/-- An object lets go of what it holds. -/
theorem refs_without (host : Refs) {objs objs' : List SQObjectPtr} {o : SQObjectPtr}
    (h : ∀ k, holders objs k = holders objs' k + if counted o = some k then 1 else 0) :
    Refs.Allows (Owners.refs ⟨host, objs⟩) (.release o) ∧
      Owners.refs ⟨host, objs'⟩ = (Refs.call (Owners.refs ⟨host, objs⟩) (.release o)).1 := by
  constructor
  · intro k hk
    rw [Owners.refs, h k, if_pos hk]
    omega
  · funext k
    have hk := h k
    rw [Refs.call]
    cases ho : counted o with
    | none =>
      rw [ho, if_neg nofun] at hk
      change host k + holders objs' k = host k + holders objs k
      omega
    | some k₀ =>
      dsimp only
      rw [ho] at hk
      by_cases heq : k = k₀
      · subst heq
        rw [if_pos rfl] at hk
        rw [Function.update_self]
        change host k + holders objs' k = host k + holders objs k - 1
        omega
      · rw [if_neg fun hsome => heq (Option.some.inj hsome).symm] at hk
        rw [Function.update_of_ne heq]
        change host k + holders objs' k = host k + holders objs k
        omega

theorem refs_host {s s' : Owners} {op : RefOp} (h : s.step (.host op) = some s') :
    s'.objs = s.objs ∧ s.refs.Allows op ∧ s'.refs = (s.refs.call op).1 := by
  have hheld {po : SQObjectPtr} (hpo : (counted po).all fun k => s.host k ≠ 0) :
      ∀ k, counted po = some k → s.refs k ≠ 0 := by
    intro k hk
    rw [hk] at hpo
    have hhost : s.host k ≠ 0 := by simpa using hpo
    rw [Owners.refs]
    omega
  cases op with
  | addref po =>
    cases h
    refine ⟨rfl, trivial, ?_⟩
    funext k
    rw [Refs.call, Owners.refs, Refs.call]
    cases counted po with
    | none => rfl
    | some k₀ =>
      dsimp only
      by_cases heq : k = k₀
      · subst heq
        rw [Function.update_self, Function.update_self, Owners.refs]
        omega
      · rw [Function.update_of_ne heq, Function.update_of_ne heq]
        rfl
  | getrefcount po =>
    rw [Owners.step] at h
    split at h
    · next hpo =>
      cases h
      refine ⟨rfl, hheld hpo, ?_⟩
      rw [Refs.call, Refs.call]
      cases counted po <;> rfl
    · cases h
  | release po =>
    rw [Owners.step] at h
    split at h
    · next hpo =>
      cases h
      refine ⟨rfl, hheld hpo, ?_⟩
      funext k
      rw [Refs.call, Owners.refs, Refs.call]
      cases hk₀ : counted po with
      | none => rfl
      | some k₀ =>
        dsimp only
        by_cases heq : k = k₀
        · subst heq
          have hhost : s.host k ≠ 0 := by
            rw [hk₀] at hpo
            simpa using hpo
          rw [Function.update_self, Function.update_self, Owners.refs]
          omega
        · rw [Function.update_of_ne heq, Function.update_of_ne heq]
          rfl
    · cases h

/-- The table counts what the host and the objects hold. -/
structure Held (heap : Heap) (s : Owners) (e : ScriptEnv) : Prop where
  objs : e.objs = s.objs
  counts : Counts heap e.table s.refs

theorem Held.make {s : Owners} {e : ScriptEnv} (h : Held heap s e) (o : SQObjectPtr) :
    ∃ e', e.make heap o = some e' ∧ Held heap ⟨s.host, s.objs ++ [o]⟩ e' := by
  obtain ⟨u, hadd, hu⟩ := h.counts.sq_addref o
  refine ⟨⟨u, e.objs ++ [o]⟩, ?_, by rw [h.objs], ?_⟩
  · rw [ScriptEnv.make, hadd]
    rfl
  · rw [refs_append]
    exact hu

theorem Held.letGo {s : Owners} {e : ScriptEnv} (h : Held heap s e) {i : Nat}
    (hi : i < s.objs.length) {objs' : List SQObjectPtr}
    (hobjs : ∀ k, holders s.objs k =
      holders objs' k + if counted s.objs[i] = some k then 1 else 0) :
    ∃ table, e.letGo heap s.objs[i] = some table ∧
      Held heap ⟨s.host, objs'⟩ ⟨table, objs'⟩ := by
  obtain ⟨hallows, hrefs⟩ := refs_without s.host hobjs
  rw [ScriptEnv.letGo]
  by_cases hnull : s.objs[i] = none
  · have hsame : (Refs.call s.refs (.release s.objs[i])).1 = s.refs := by
      rw [Refs.call, hnull]
      rfl
    refine ⟨e.table, if_pos hnull, rfl, ?_⟩
    rw [hrefs.trans hsame]
    exact h.counts
  · obtain ⟨u, b, hrel, -, hu⟩ := h.counts.sq_release s.objs[i] hallows
    refine ⟨u, ?_, rfl, ?_⟩
    · rw [if_neg hnull, hrel]
      rfl
    · rw [hrefs]
      exact hu

/-- One step: what the owners may do, the table follows. -/
theorem Held.step {s s' : Owners} {e : ScriptEnv} {op : ScriptOp} (h : Held heap s e)
    (hstep : s.step op = some s') : ∃ e', e.step heap op = some e' ∧ Held heap s' e' := by
  cases op with
  | compile closure =>
    cases hstep
    exact h.make closure
  | copy i =>
    obtain ⟨o, ho, rfl⟩ := Option.map_eq_some_iff.mp hstep
    obtain ⟨e', hmake, he'⟩ := h.make o
    refine ⟨e', ?_, he'⟩
    rw [ScriptEnv.step, h.objs, ho]
    exact hmake
  | reset i =>
    rw [Owners.step] at hstep
    split at hstep
    · next hi =>
      cases hstep
      obtain ⟨table, hgo, hheld⟩ := h.letGo hi (holders_set hi)
      refine ⟨_, ?_, hheld⟩
      rw [ScriptEnv.step, h.objs, List.getElem?_eq_getElem hi]
      simp only [Option.bind_eq_bind, Option.bind_some, hgo]
      rfl
    · cases hstep
  | destroy i =>
    rw [Owners.step] at hstep
    split at hstep
    · next hi =>
      cases hstep
      obtain ⟨table, hgo, hheld⟩ := h.letGo hi (holders_erase hi)
      refine ⟨_, ?_, hheld⟩
      rw [ScriptEnv.step, h.objs, List.getElem?_eq_getElem hi]
      simp only [Option.bind_eq_bind, Option.bind_some, hgo]
      rfl
    · cases hstep
  | host op =>
    obtain ⟨hobjs, hallows, hrefs⟩ := refs_host hstep
    obtain ⟨u, hcall, hu⟩ := h.counts.call op hallows
    refine ⟨⟨u, e.objs⟩, ?_, by rw [hobjs, h.objs], by rw [hrefs]; exact hu⟩
    rw [ScriptEnv.step, hcall]
    rfl

/-- **A closure is held exactly while an object or the host holds it**: whatever
objects are made, copied, reset and destroyed, no `sq_release` meets an object that is
not in the table, and the count of each is that of its holders. -/
theorem scripts_held (heap : Heap) (ops : List ScriptOp) (s : Owners)
    (h : run Owners.step ⟨fun _ => 0, []⟩ ops = some s) :
    ∃ e, run (ScriptEnv.step heap) ⟨Create, []⟩ ops = some e ∧ e.objs = s.objs ∧
      ∀ k c, e.table.Holds k c ↔ s.host k + holders s.objs k = c ∧ c ≠ 0 := by
  have hinit : Held heap ⟨fun _ => 0, []⟩ ⟨Create, []⟩ := ⟨rfl, counts_create heap⟩
  obtain ⟨e, hrun, he⟩ := run_follows (fun s e op t hs hstep => hs.step hstep) hinit h
  exact ⟨e, hrun, he.objs, he.counts.holds⟩

/-- A script is compiled and copied, and the first object goes. -/
theorem scripts_held_copied :
    ∃ s, run Owners.step ⟨fun _ => 0, []⟩
        [.compile (some ⟨.OT_CLOSURE, 8⟩), .copy 0, .destroy 0] = some s ∧
      ∃ e, run (ScriptEnv.step ⟨id, id, fun _ => none⟩) ⟨Create, []⟩
          [.compile (some ⟨.OT_CLOSURE, 8⟩), .copy 0, .destroy 0] = some e ∧
        e.objs = s.objs ∧
        ∀ k c, e.table.Holds k c ↔ s.host k + holders s.objs k = c ∧ c ≠ 0 :=
  ⟨_, rfl, scripts_held ⟨id, id, fun _ => none⟩
    [.compile (some ⟨.OT_CLOSURE, 8⟩), .copy 0, .destroy 0] _ rfl⟩

end Autocom.Squirrel
