import Autocom.SQStringTable
import Autocom.SQTableRuns

/-! # Equal texts are one object

Strings are made and go in any order. Each text that is live has one object, and
so a table that compares objects compares texts; `GetStr`, which compares texts,
finds what `Get` finds. -/
namespace Autocom.Squirrel
open Autocom.Lib.Links SQStringTable

/-- Each live text with its object. -/
abbrev Texts : Type := Bytes → Option (BitVec 64)

inductive StringOp
  | Add (news : Bytes) (len : Int) (malloc : BitVec 64)
  | Remove (bs : BitVec 64) (freed : SQString)

def SQStringTable.call (t : SQStringTable) : StringOp → Option (SQStringTable × Option (BitVec 64))
  | .Add news len malloc => do
    let (t, s) ← t.Add news len malloc
    return (t, some s)
  | .Remove bs freed => do
    let t ← t.Remove bs freed
    return (t, none)

def SQStringTable.calls (t : SQStringTable) :
    List StringOp → Option (SQStringTable × List (Option (BitVec 64)))
  | [] => some (t, [])
  | op :: ops => do
    let (t, a) ← t.call op
    let (t, as) ← t.calls ops
    return (t, a :: as)

def Texts.call (m : Texts) : StringOp → Texts × Option (BitVec 64)
  | .Add news len malloc =>
    let s := (m (text news len)).getD malloc
    (Function.update m (text news len) (some s), some s)
  | .Remove bs _ => (fun x => if m x = some bs then none else m x, none)

def Texts.calls (m : Texts) : List StringOp → Texts × List (Option (BitVec 64))
  | [] => (m, [])
  | op :: ops =>
    let (m, a) := m.call op
    let (m, as) := m.calls ops
    (m, a :: as)

/-- `SQ_MALLOC` gives an address that no live string has; what is removed is live. -/
def Texts.Allows (m : Texts) : StringOp → Prop
  | .Add news len malloc => m (text news len) = none → ∀ x, m x ≠ some malloc
  | .Remove bs _ => ∃ x, m x = some bs

def Texts.AllowsAll (m : Texts) : List StringOp → Prop
  | [] => True
  | op :: ops => m.Allows op ∧ (m.call op).1.AllowsAll ops

/-- The live strings of the table are the objects of `m`. -/
structure Interns (t : SQStringTable) (live : Finset (BitVec 64)) (m : Texts) : Prop where
  inv : SQStringTable.Inv t live
  live_iff : ∀ x s, m x = some s ↔ s ∈ live ∧ t.val s = x

variable {t : SQStringTable} {live : Finset (BitVec 64)} {m : Texts}

theorem Interns.absent_iff (h : Interns t live m) (x : Bytes) :
    m x = none ↔ ∀ s ∈ live, t.val s ≠ x := by
  rw [Option.eq_none_iff_forall_ne_some]
  exact forall_congr' fun s => by rw [ne_eq, h.live_iff, not_and]

theorem Interns.count (h : Interns t live m) : t.slotused = {x | m x ≠ none}.ncard := by
  have himage : {x | m x ≠ none} = t.val '' live := by
    ext x
    rw [Set.mem_ofPred_eq, Option.ne_none_iff_exists']
    exact exists_congr fun s => h.live_iff x s
  have hinj : Set.InjOn t.val live := fun s hs s' hs' heq =>
    (h.inv.single s hs s' hs' heq.symm).symm
  rw [himage, hinj.ncard_image, Set.ncard_coe_finset]
  exact h.inv.count

theorem Interns.add (h : Interns t live m) (news : Bytes) (len : Int)
    (malloc : BitVec 64) (hfresh : m.Allows (.Add news len malloc)) :
    ∃ t' live', t.Add news len malloc = some (t', (m (text news len)).getD malloc) ∧
      Interns t' live' (m.call (.Add news len malloc)).1 := by
  rcases h.inv.add_spec news len malloc with ⟨s, hs, hval, hadd⟩ | ⟨hnew, hmade⟩
  · have hm : m (text news len) = some s := (h.live_iff _ s).mpr ⟨hs, hval⟩
    refine ⟨t, live, by rw [hadd, hm]; rfl, h.inv, fun x s' => ?_⟩
    change Function.update m _ (some ((m (text news len)).getD malloc)) x = some s' ↔ _
    rw [hm, Option.getD_some, ← hm, Function.update_eq_self]
    exact h.live_iff x s'
  · have hm : m (text news len) = none := (h.absent_iff _).mpr hnew
    have hmalloc : malloc ∉ live := fun hin => hfresh hm _ ((h.live_iff _ _).mpr ⟨hin, rfl⟩)
    obtain ⟨t', hadd, hinv, hval⟩ := hmade hmalloc
    refine ⟨t', insert malloc live, by rw [hadd, hm]; rfl, hinv, fun x s => ?_⟩
    change Function.update m _ (some ((m (text news len)).getD malloc)) x = some s ↔ _
    rw [hm, Option.getD_none, hval, Finset.mem_insert]
    by_cases hs : s = malloc
    · subst hs
      rw [Function.update_self]
      by_cases hx : x = text news len
      · rw [hx, Function.update_self]
        exact iff_of_true rfl ⟨.inl rfl, rfl⟩
      · rw [Function.update_of_ne hx, h.live_iff]
        exact iff_of_false (fun hin => hmalloc hin.1) fun hin => hx hin.2.symm
    · rw [Function.update_of_ne hs, or_iff_right hs, ← h.live_iff]
      by_cases hx : x = text news len
      · rw [hx, Function.update_self, hm]
        exact iff_of_false (fun heq => hs (Option.some.inj heq).symm) nofun
      · rw [Function.update_of_ne hx]

theorem Interns.remove (h : Interns t live m) (bs : BitVec 64) (freed : SQString)
    (hlive : m.Allows (.Remove bs freed)) :
    ∃ t' live', t.Remove bs freed = some t' ∧
      Interns t' live' (m.call (.Remove bs freed)).1 := by
  obtain ⟨x₀, hx₀⟩ := hlive
  have hbs : bs ∈ live := ((h.live_iff x₀ bs).mp hx₀).1
  obtain ⟨t', hrem, hinv, hval⟩ := h.inv.remove_spec hbs freed
  refine ⟨t', live.erase bs, hrem, hinv, fun x s => ?_⟩
  have hkeep : (m.call (.Remove bs freed)).1 x = some s ↔ m x = some s ∧ s ≠ bs := by
    change (if m x = some bs then none else m x) = some s ↔ _
    split
    case isTrue hx =>
      exact iff_of_false nofun fun hs => hs.2 (Option.some.inj (hs.1.symm.trans hx))
    case isFalse hx =>
      exact (and_iff_left_of_imp fun hs heq => hx (hs.trans (congrArg some heq))).symm
  rw [hkeep, h.live_iff, Finset.mem_erase]
  constructor
  · rintro ⟨⟨hs, hx⟩, hne⟩
    exact ⟨⟨hne, hs⟩, (hval s (Finset.mem_erase.mpr ⟨hne, hs⟩)).trans hx⟩
  · rintro ⟨⟨hne, hs⟩, hx⟩
    exact ⟨⟨hs, (hval s (Finset.mem_erase.mpr ⟨hne, hs⟩)).symm.trans hx⟩, hne⟩

theorem Interns.call (h : Interns t live m) (op : StringOp) (hop : m.Allows op) :
    ∃ t' live', t.call op = some (t', (m.call op).2) ∧ Interns t' live' (m.call op).1 := by
  cases op with
  | Add news len malloc =>
    obtain ⟨t', live', hadd, ht'⟩ := h.add news len malloc hop
    exact ⟨t', live', by rw [SQStringTable.call, hadd]; rfl, ht'⟩
  | Remove bs freed =>
    obtain ⟨t', live', hrem, ht'⟩ := h.remove bs freed hop
    exact ⟨t', live', by rw [SQStringTable.call, hrem]; rfl, ht'⟩

theorem interns_create (mem : BitVec 64 → SQString) :
    Interns (Create mem) ∅ fun _ => none := by
  refine ⟨⟨⟨Nat.succ_pos 3, Lib.Chains.Buckets.empty _ _, nofun, nofun, rfl⟩, Nat.zero_le 4⟩,
    fun x s => ?_⟩
  exact iff_of_false nofun fun h => absurd h.1 (Finset.notMem_empty s)

theorem Interns.calls (h : Interns t live m) (ops : List StringOp) (hops : m.AllowsAll ops) :
    ∃ t' live', t.calls ops = some (t', (m.calls ops).2) ∧
      Interns t' live' (m.calls ops).1 := by
  induction ops generalizing t live m with
  | nil => exact ⟨t, live, rfl, h⟩
  | cons op ops ih =>
    obtain ⟨hop, hrest⟩ := hops
    obtain ⟨t₁, live₁, hcall, ht₁⟩ := h.call op hop
    obtain ⟨t', live', hcalls, ht'⟩ := ih ht₁ hrest
    refine ⟨t', live', ?_, ht'⟩
    rw [SQStringTable.calls, hcall]
    simp only [Option.bind_eq_bind, Option.bind_some, hcalls]
    rfl

/-- **Equal texts are one object**: whatever is added and removed, no call fails, `Add`
answers with the object of its text, different texts have different objects, and
there are never more strings than slots. -/
theorem strings_interned (mem : BitVec 64 → SQString) (ops : List StringOp)
    (hops : Texts.AllowsAll (fun _ => none) ops) :
    ∃ t, (Create mem).calls ops = some (t, (Texts.calls (fun _ => none) ops).2) ∧
      (∀ x s, (Texts.calls (fun _ => none) ops).1 x = some s →
        t.val s = x ∧ t.hash s = _hashstr x) ∧
      t.slotused = {x | (Texts.calls (fun _ => none) ops).1 x ≠ none}.ncard ∧
      t.slotused ≤ t.numofslots := by
  obtain ⟨t, live, hcalls, ht⟩ := (interns_create mem).calls ops hops
  refine ⟨t, hcalls, fun x s hs => ?_, ht.count, ht.inv.load⟩
  obtain ⟨hlive, rfl⟩ := (ht.live_iff x s).mp hs
  exact ⟨rfl, ht.inv.hashed s hlive⟩

/-- A text is added twice, the second time up to its zero, and its string removed. -/
theorem strings_interned_addTwice :
    ∃ t, (Create fun _ => ⟨[], 0, none⟩).calls
        [.Add [97] 1 8, .Add [97, 0] (-1) 16, .Remove 8 ⟨[], 0, none⟩] =
          some (t, (Texts.calls (fun _ => none)
            [.Add [97] 1 8, .Add [97, 0] (-1) 16, .Remove 8 ⟨[], 0, none⟩]).2) ∧
      (∀ x s, (Texts.calls (fun _ => none)
          [.Add [97] 1 8, .Add [97, 0] (-1) 16, .Remove 8 ⟨[], 0, none⟩]).1 x = some s →
        t.val s = x ∧ t.hash s = _hashstr x) ∧
      t.slotused = {x | (Texts.calls (fun _ => none)
        [.Add [97] 1 8, .Add [97, 0] (-1) 16, .Remove 8 ⟨[], 0, none⟩]).1 x ≠ none}.ncard ∧
      t.slotused ≤ t.numofslots :=
  strings_interned (fun _ => ⟨[], 0, none⟩)
    [.Add [97] 1 8, .Add [97, 0] (-1) 16, .Remove 8 ⟨[], 0, none⟩]
    ⟨nofun, nofun, ⟨[97], rfl⟩, trivial⟩

/-- The fifth string is one too many for four slots. -/
example :
    ((Create fun _ => ⟨[], 0, none⟩).calls
      ((List.range 5).map fun n => .Add [BitVec.ofNat 8 n, 7] 2 (BitVec.ofNat 64 n))).map
        (fun r => (r.1.numofslots, r.1.slotused, r.2)) =
      some (8, 5, [some 0, some 1, some 2, some 3, some 4]) := by
  decide +kernel

/-! ## `GetStr` -/

/-- `sq_type(n->key) == OT_STRING && (scstrcmp(_stringval(n->key),key) == 0)`. -/
def isStr (strings : SQStringTable) (key : Bytes) : SQObjectPtr → Bool
  | some ⟨.OT_STRING, s⟩ => cstr (strings.val s) == cstr key
  | _ => false

/-- The object that `val` is set to, `some none` for `false`; `keylen` is the length of `key`. -/
def SQTable.GetStr (heap : Heap) (strings : SQStringTable) (t : SQTable)
    (key : Bytes) : Option (Option SQObjectPtr) := do
  let n ← search t.next (fun i => isStr strings key (t.key i)) t.numofnodes
    ((_hashstr key).toNat &&& (t.numofnodes - 1))
  return n.map fun n => realval heap (t.val n)

/-- The string keys of the table are live, and no zero is in them. -/
def SQTable.LiveKeys (strings : SQStringTable) (live : Finset (BitVec 64)) (t : SQTable) : Prop :=
  ∀ i s, t.key i = some ⟨.OT_STRING, s⟩ → s ∈ live ∧ 0 ∉ strings.val s

section
variable {strings : SQStringTable} {heap : Heap} {t : SQTable} {key : Bytes}

theorem isStr_iff (hlive : t.LiveKeys strings live) (hkey : 0 ∉ key) (i : Nat) :
    isStr strings key (t.key i) = true ↔
      ∃ s ∈ live, t.key i = some ⟨.OT_STRING, s⟩ ∧ strings.val s = key := by
  cases hk : t.key i with
  | none => exact iff_of_false nofun fun ⟨_, _, heq, _⟩ => nomatch heq
  | some k =>
    obtain ⟨type, s⟩ := k
    cases type with
    | OT_STRING =>
      obtain ⟨hs, hzero⟩ := hlive i s hk
      rw [isStr, beq_iff_eq, cstr_eq_self hzero, cstr_eq_self hkey]
      constructor
      · exact fun heq => ⟨s, hs, rfl, heq⟩
      · rintro ⟨s', -, heq, hval⟩
        cases heq
        exact hval
    | _ => exact iff_of_false nofun fun ⟨_, _, heq, _⟩ => nomatch heq

theorem Interns.getStr_found (h : Interns strings live m) (hheap : heap.hash = strings.hash)
    (hlive : t.LiveKeys strings live) (hkey : 0 ∉ key) {s : BitVec 64} (hs : m key = some s) :
    t.GetStr heap strings key = t.Get heap (some ⟨.OT_STRING, s⟩) := by
  obtain ⟨hin, hval⟩ := (h.live_iff key s).mp hs
  have hsame : (fun i => isStr strings key (t.key i)) =
      fun i => t.key i == some ⟨.OT_STRING, s⟩ := by
    funext i
    rw [Bool.eq_iff_iff, isStr_iff hlive hkey, beq_iff_eq]
    constructor
    · rintro ⟨s', hin', hi, hval'⟩
      rw [hi, h.inv.single s hin s' hin' (hval'.trans hval.symm)]
    · exact fun hi => ⟨s, hin, hi, hval⟩
  have hhash : HashObj heap (some ⟨.OT_STRING, s⟩) = _hashstr key := by
    rw [← hval, ← h.inv.hashed s hin, ← hheap]
    rfl
  rw [SQTable.GetStr, hsame, ← hhash, SQTable.Get, if_neg (Option.some_ne_none _)]
  rfl

theorem Interns.getStr_missed (h : Interns strings live m) (ht : SQTable.Inv heap t)
    (hlive : t.LiveKeys strings live) (hkey : 0 ∉ key) (hnone : m key = none) :
    t.GetStr heap strings key = some none := by
  have hpos : 0 < t.numofnodes := Nat.lt_of_lt_of_le (Nat.succ_pos 3) ht.four_le
  have hclosed : ∀ i j, t.next i = some j → j ∈ List.range t.numofnodes := fun i j hij =>
    List.mem_range.mpr (ht.closed i j hij)
  have hstart : (_hashstr key).toNat &&& (t.numofnodes - 1) ∈ List.range t.numofnodes :=
    List.mem_range.mpr (Nat.lt_of_le_of_lt Nat.and_le_right (Nat.sub_lt hpos Nat.one_pos))
  obtain ⟨r, hr⟩ := search_ends ht.layout.acyclic hclosed hstart
    fun i => isStr strings key (t.key i)
  rw [List.length_range] at hr
  cases r with
  | none => rw [SQTable.GetStr, hr]; rfl
  | some i =>
    obtain ⟨s, hs, -, hval⟩ := (isStr_iff hlive hkey i).mp (search_found hr).2
    exact absurd hval ((h.absent_iff key).mp hnone s hs)

end

/-- **`GetStr` finds what `Get` finds** under the object of the text, and nothing when
the text is not live, in every table whose string keys are live and have no zero in them. -/
theorem getStr_is_get (mem : BitVec 64 → SQString) (strOps : List StringOp)
    (hallowed : Texts.AllowsAll (fun _ => none) strOps) (strings : SQStringTable)
    (as : List (Option (BitVec 64))) (hstrings : (Create mem).calls strOps = some (strings, as))
    (heap : Heap) (hheap : heap.hash = strings.hash) (nInitialSize : Nat) (ops : List Op)
    (t : SQTable) (bs : List Answer)
    (ht : (SQTable.Create nInitialSize).calls heap ops = some (t, bs))
    (hkeys : ∀ s, (Map.calls heap (fun _ => none) ops).1 ⟨.OT_STRING, s⟩ ≠ none →
      ∃ x, 0 ∉ x ∧ (Texts.calls (fun _ => none) strOps).1 x = some s)
    (key : Bytes) (hkey : 0 ∉ key) :
    t.GetStr heap strings key =
      match (Texts.calls (fun _ => none) strOps).1 key with
      | some s => t.Get heap (some ⟨.OT_STRING, s⟩)
      | none => some none := by
  obtain ⟨strings', live, hcalls, hint⟩ := (interns_create mem).calls strOps hallowed
  rw [hstrings] at hcalls
  cases hcalls
  obtain ⟨t', hops, hrep⟩ := (represents_create heap nInitialSize).calls ops
  rw [ht] at hops
  cases hops
  have hlive : t.LiveKeys strings live := by
    intro i s hi
    have hheld : (Map.calls heap (fun _ => none) ops).1 ⟨.OT_STRING, s⟩ ≠ none := by
      intro hnone
      exact (hrep.none_iff _).mp hnone i hi
    obtain ⟨x, hx, hxs⟩ := hkeys s hheld
    obtain ⟨hs, rfl⟩ := (hint.live_iff x s).mp hxs
    exact ⟨hs, hx⟩
  cases hm : (Texts.calls (fun _ => none) strOps).1 key with
  | none => exact hint.getStr_missed hrep.inv hlive hkey hm
  | some s => exact hint.getStr_found hheap hlive hkey hm

/-- The keyword `if`, and its token. -/
theorem getStr_is_get_keyword :
    ∃ strings t,
      (Create fun _ => ⟨[], 0, none⟩).calls [.Add [105, 102, 0] (-1) 8] =
        some (strings, [some 8]) ∧
      (SQTable.Create 37).calls ⟨strings.hash, id, fun _ => none⟩
          [.newSlot ⟨.OT_STRING, 8⟩ (some ⟨.OT_INTEGER, 258⟩)] = some (t, [.void]) ∧
      t.GetStr ⟨strings.hash, id, fun _ => none⟩ strings [105, 102] =
        match (Texts.calls (fun _ => none) [.Add [105, 102, 0] (-1) 8]).1 [105, 102] with
        | some s => t.Get ⟨strings.hash, id, fun _ => none⟩ (some ⟨.OT_STRING, s⟩)
        | none => some none := by
  refine ⟨_, _, rfl, rfl, getStr_is_get (fun _ => ⟨[], 0, none⟩) [.Add [105, 102, 0] (-1) 8]
    ⟨nofun, trivial⟩ _ _ rfl _ rfl 37 [.newSlot ⟨.OT_STRING, 8⟩ (some ⟨.OT_INTEGER, 258⟩)] _ _
    rfl (fun s hs => ⟨[105, 102], by decide, ?_⟩) [105, 102] (by decide)⟩
  have heq : s = 8 := by
    by_contra hne
    have hother : SQObject.mk .OT_STRING s ≠ ⟨.OT_STRING, 8⟩ := fun h => hne (congrArg (·.raw) h)
    have hnone : Function.update (fun _ => none) (SQObject.mk .OT_STRING 8)
        (some (some (SQObject.mk .OT_INTEGER 258))) ⟨.OT_STRING, s⟩ = none :=
      Function.update_of_ne hother ..
    exact hs hnone
  rw [heq]
  rfl

end Autocom.Squirrel
