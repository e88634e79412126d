import Autocom.Bytes
import Autocom.Lib.Chains
import Autocom.SQTable

/-! # `SQStringTable`, the strings of the script language

Every string object is in this table, and a text that is there is not made again:
two texts are equal when their objects are. `SQ_MALLOC` is an address that comes
with the call, and what `SQ_FREE` leaves behind an address is any string at all.
The outer `none` of an operation is a loop that does not end or `assert(0)`. -/
namespace Autocom.Squirrel
open Autocom.Lib.Chains

/-- The loop of `_hashstr`: `l` falls by `step`, the characters are the next ones. -/
def hashChars (step : Nat) : Bytes → Nat → BitVec 64 → BitVec 64
  | [], _, h => h
  | c :: s, l, h =>
    if step ≤ l then
      -- `(unsigned short)` of a `char` is its sign extension
      hashChars step s (l - step) (h ^^^ ((h <<< 5) + (h >>> 2) + (c.signExtend 16).setWidth 64))
    else h

def _hashstr (s : Bytes) : BitVec 64 :=
  hashChars (s.length >>> 5 ||| 1) s s.length (BitVec.ofNat 64 s.length)

/-- `val` are the `_len` characters of `_val`, the zero after them apart. -/
structure SQString where
  val : Bytes
  hash : BitVec 64
  next : Option (BitVec 64)

structure SQStringTable where
  mem : BitVec 64 → SQString
  strings : Nat → Option (BitVec 64)
  numofslots : Nat
  slotused : Nat

namespace SQStringTable

def next (t : SQStringTable) (s : BitVec 64) : Option (BitVec 64) := (t.mem s).next
def val (t : SQStringTable) (s : BitVec 64) : Bytes := (t.mem s).val
def hash (t : SQStringTable) (s : BitVec 64) : BitVec 64 := (t.mem s).hash

/-- `hash & (_numofslots-1)`. -/
def slotOf (t : SQStringTable) (hash : BitVec 64) : Nat := hash.toNat &&& (t.numofslots - 1)

def AllocNodes (t : SQStringTable) (size : Nat) : SQStringTable :=
  { t with numofslots := size, strings := fun _ => none }

def Create (mem : BitVec 64 → SQString) : SQStringTable :=
  { mem, strings := fun _ => none, numofslots := 4, slotused := 0 }

/-- `p->_next = _strings[h]; _strings[h] = p;` -/
def push (t : SQStringTable) (p : BitVec 64) : SQStringTable :=
  { t with
    mem := Function.update t.mem p { t.mem p with next := t.strings (t.slotOf (t.hash p)) }
    strings := Function.update t.strings (t.slotOf (t.hash p)) (some p) }

/-- `while(p)`. -/
def moveSlot : Nat → SQStringTable → Option (BitVec 64) → Option SQStringTable
  | _, t, none => some t
  | 0, _, some _ => none
  | fuel + 1, t, some p => moveSlot fuel (t.push p) (t.next p)

def Resize (t : SQStringTable) (size : Nat) : Option SQStringTable :=
  (List.range t.numofslots).foldlM (fun u i => moveSlot t.slotused u (t.strings i))
    (t.AllocNodes size)

/-- The text that `news` and `len` are. -/
def text (news : Bytes) (len : Int) : Bytes :=
  if len < 0 then news.takeWhile (· != 0) else news.take len.toNat

/-- The string is made at the address `p`. -/
def made (t : SQStringTable) (news : Bytes) (p : BitVec 64) : SQStringTable :=
  { ({ t with mem := Function.update t.mem p ⟨news, _hashstr news, none⟩ }).push p with
    slotused := t.slotused + 1 }

def Add (t : SQStringTable) (news : Bytes) (len : Int) (p : BitVec 64) :
    Option (SQStringTable × BitVec 64) := do
  let news := text news len
  match ← seek t.next (fun s => t.val s == news) t.slotused none
      (t.strings (t.slotOf (_hashstr news))) with
  | (_, some s) => return (t, s)
  | (_, none) =>
    let t := t.made news p
    if t.slotused > t.numofslots then
      let t ← t.Resize (t.numofslots * 2)
      return (t, p)
    else return (t, p)

/-- `s` is taken out of its slot `h`. -/
def unlink (t : SQStringTable) (h : Nat) (prev : Option (BitVec 64)) (s : BitVec 64) :
    SQStringTable :=
  match prev with
  | some q => { t with mem := Function.update t.mem q { t.mem q with next := t.next s } }
  | none => { t with strings := Function.update t.strings h (t.next s) }

/-- `freed` is what is behind `bs` from then on. -/
def Remove (t : SQStringTable) (bs : BitVec 64) (freed : SQString) : Option SQStringTable := do
  let h := t.slotOf (t.hash bs)
  match ← seek t.next (· == bs) t.slotused none (t.strings h) with
  | (_, none) => none
  | (prev, some s) =>
    let t := t.unlink h prev s
    return { t with slotused := t.slotused - 1, mem := Function.update t.mem bs freed }

/-! ## The strings are filed -/

/-- The slot of a string. -/
def home (t : SQStringTable) (s : BitVec 64) : Nat := t.slotOf (t.hash s)

/-- Every live string is in the slot of its hash, and no two have one text. -/
structure Filed (t : SQStringTable) (live : Finset (BitVec 64)) : Prop where
  pos : 0 < t.numofslots
  buckets : Buckets t.next t.strings live t.home
  hashed : ∀ s ∈ live, t.hash s = _hashstr (t.val s)
  single : ∀ s ∈ live, ∀ s' ∈ live, t.val s' = t.val s → s' = s
  count : t.slotused = live.card

/-- Between two calls there are no more strings than slots. -/
structure Inv (t : SQStringTable) (live : Finset (BitVec 64)) : Prop extends Filed t live where
  load : t.slotused ≤ t.numofslots

section
variable (t : SQStringTable) (p : BitVec 64)

@[simp] theorem next_push : (t.push p).next = Function.update t.next p (t.strings (t.home p)) :=
  Function.comp_update SQString.next t.mem p _

@[simp] theorem val_push : (t.push p).val = t.val :=
  (Function.comp_update SQString.val t.mem p _).trans (Function.update_eq_self p t.val)

@[simp] theorem hash_push : (t.push p).hash = t.hash :=
  (Function.comp_update SQString.hash t.mem p _).trans (Function.update_eq_self p t.hash)

@[simp] theorem home_push : (t.push p).home = t.home := by
  unfold home
  rw [hash_push]
  rfl

end

variable {t u u' : SQStringTable} {live : Finset (BitVec 64)}

theorem home_lt (hpos : 0 < t.numofslots) (s : BitVec 64) : t.home s < t.numofslots :=
  Nat.lt_of_le_of_lt Nat.and_le_right (Nat.sub_lt hpos Nat.one_pos)

/-- A live string is the one that a search for its text ends at. -/
theorem Filed.home_eq (h : Filed t live) {s : BitVec 64} (hs : s ∈ live) :
    t.slotOf (_hashstr (t.val s)) = t.home s := by
  rw [home, h.hashed s hs]

/-! ## `Resize` -/

/-- Only the links and the slots differ. -/
structure Same (u u' : SQStringTable) : Prop where
  val : u'.val = u.val
  hash : u'.hash = u.hash
  numofslots : u'.numofslots = u.numofslots
  slotused : u'.slotused = u.slotused

theorem Same.home (h : Same u u') : u'.home = u.home := by
  unfold SQStringTable.home slotOf
  rw [h.hash, h.numofslots]

theorem Same.trans {w : SQStringTable} (h : Same u u') (h' : Same u' w) : Same u w :=
  ⟨h'.val.trans h.val, h'.hash.trans h.hash, h'.numofslots.trans h.numofslots,
    h'.slotused.trans h.slotused⟩

theorem same_push (u : SQStringTable) (p : BitVec 64) : Same u (u.push p) :=
  ⟨val_push u p, hash_push u p, rfl, rfl⟩

/-- One old slot: its strings are filed, the links of the others stay. -/
theorem moveSlot_spec {filed : Finset (BitVec 64)}
    (hu : Buckets u.next u.strings filed u.home) {start : Option (BitVec 64)}
    {l : List (BitVec 64)} (hl : Chain u.next start l) (hnew : ∀ p ∈ l, p ∉ filed)
    {fuel : Nat} (hfuel : l.length ≤ fuel) :
    ∃ u', moveSlot fuel u start = some u' ∧ Same u u' ∧
      Buckets u'.next u'.strings (filed ∪ l.toFinset) u'.home ∧
      ∀ p, p ∉ l → u'.next p = u.next p := by
  induction l generalizing u start filed fuel with
  | nil =>
    cases hl
    refine ⟨u, by cases fuel <;> rfl, ⟨rfl, rfl, rfl, rfl⟩, ?_, fun _ _ => rfl⟩
    rwa [List.toFinset_nil, Finset.union_empty]
  | cons p l ih =>
    have hnodup := List.nodup_cons.mp hl.nodup
    cases hl with
    | cons rest =>
      cases fuel with
      | zero => cases hfuel
      | succ fuel =>
        have hp : p ∉ filed := hnew p List.mem_cons_self
        have hpush : Buckets (u.push p).next (u.push p).strings (insert p filed)
            (u.push p).home := by
          rw [next_push, home_push]
          exact hu.push hp rfl
        have hrest : Chain (u.push p).next (u.next p) l := by
          rw [next_push]
          refine rest.congr fun x hx => Function.update_of_ne ?_ _ _
          exact fun heq => hnodup.1 (heq ▸ hx)
        have hnew' : ∀ x ∈ l, x ∉ insert p filed := by
          intro x hx hin
          rcases Finset.mem_insert.mp hin with rfl | hin
          · exact hnodup.1 hx
          · exact hnew x (List.mem_cons_of_mem _ hx) hin
        obtain ⟨u', hmove, hsame, hbuckets, hframe⟩ :=
          ih hpush hrest hnew' (Nat.le_of_succ_le_succ hfuel)
        refine ⟨u', by rw [moveSlot, hmove], (same_push u p).trans hsame, ?_, ?_⟩
        · rw [List.toFinset_cons, Finset.union_insert, ← Finset.insert_union]
          exact hbuckets
        · intro x hx
          obtain ⟨hxp, hxl⟩ := not_or.mp (mt List.mem_cons.mpr hx)
          rw [hframe x hxl, next_push, Function.update_of_ne hxp]

/-- After `k` old slots, what was in them is filed. -/
theorem Filed.moveSlots (h : Filed t live) (size k : Nat) :
    ∃ u, (List.range k).foldlM (fun u i => moveSlot t.slotused u (t.strings i))
        (t.AllocNodes size) = some u ∧ Same (t.AllocNodes size) u ∧
      Buckets u.next u.strings (live.filter fun s => t.home s < k) u.home ∧
      ∀ s, k ≤ t.home s → u.next s = t.next s := by
  induction k with
  | zero =>
    refine ⟨t.AllocNodes size, rfl, ⟨rfl, rfl, rfl, rfl⟩, ?_, fun _ _ => rfl⟩
    rw [Finset.filter_false_of_mem fun _ _ => Nat.not_lt_zero _]
    exact Buckets.empty _ _
  | succ k ih =>
    obtain ⟨u, hfold, hsame, hbuckets, hframe⟩ := ih
    obtain ⟨l, hchain, hmem⟩ := h.buckets.chain k
    have hl : Chain u.next (t.strings k) l :=
      hchain.congr fun s hs => hframe s (le_of_eq ((hmem s).mp hs).2.symm)
    have hnew : ∀ s ∈ l, s ∉ live.filter fun s => t.home s < k := by
      intro s hs hin
      have hlt := (Finset.mem_filter.mp hin).2
      rw [((hmem s).mp hs).2] at hlt
      exact Nat.lt_irrefl k hlt
    have hlen : l.length ≤ t.slotused := by
      rw [h.count]
      exact hchain.length_le fun s hs => ((hmem s).mp hs).1
    obtain ⟨u', hmove, hsame', hbuckets', hframe'⟩ := moveSlot_spec hbuckets hl hnew hlen
    refine ⟨u', ?_, hsame.trans hsame', ?_, ?_⟩
    · rw [List.range_succ, List.foldlM_append, hfold]
      simp [hmove]
    · convert hbuckets' using 1
      ext s
      rw [Finset.mem_union, List.mem_toFinset, hmem, Finset.mem_filter, Finset.mem_filter,
        ← and_or_left, Nat.lt_succ_iff_lt_or_eq]
    · intro s hs
      rw [hframe' s fun hin => ?_, hframe s (Nat.le_of_succ_le hs)]
      rw [((hmem s).mp hin).2] at hs
      exact Nat.not_succ_le_self k hs

/-- **`Resize` keeps every string and its text.** -/
theorem Filed.resize_spec (h : Filed t live) {size : Nat} (hsize : 0 < size) :
    ∃ u, t.Resize size = some u ∧ Filed u live ∧ u.val = t.val ∧
      u.slotused = t.slotused ∧ u.numofslots = size := by
  obtain ⟨u, hfold, hsame, hbuckets, -⟩ := h.moveSlots size t.numofslots
  rw [Finset.filter_true_of_mem fun s _ => home_lt h.pos s] at hbuckets
  have hval : u.val = t.val := hsame.val
  have hhash : u.hash = t.hash := hsame.hash
  refine ⟨u, hfold, ⟨?_, hbuckets, ?_, ?_, ?_⟩, hval, hsame.slotused, hsame.numofslots⟩
  · rw [hsame.numofslots]
    exact hsize
  · rw [hval, hhash]
    exact h.hashed
  · rw [hval]
    exact h.single
  · rw [hsame.slotused]
    exact h.count

/-! ## `Add` and `Remove` -/

/-- The string that `SQ_MALLOC` gave room for, before it is linked in. -/
def written (t : SQStringTable) (news : Bytes) (p : BitVec 64) : SQStringTable :=
  { t with mem := Function.update t.mem p ⟨news, _hashstr news, none⟩ }

section
variable (t : SQStringTable) (news : Bytes) (p : BitVec 64)

theorem next_written : (t.written news p).next = Function.update t.next p none :=
  Function.comp_update SQString.next t.mem p _

@[simp] theorem val_made : (t.made news p).val = Function.update t.val p news :=
  (val_push (t.written news p) p).trans (Function.comp_update SQString.val t.mem p _)

@[simp] theorem hash_made : (t.made news p).hash = Function.update t.hash p (_hashstr news) :=
  (hash_push (t.written news p) p).trans (Function.comp_update SQString.hash t.mem p _)

end

theorem Filed.made (h : Filed t live) {news : Bytes} {p : BitVec 64} (hp : p ∉ live)
    (hnew : ∀ s ∈ live, t.val s ≠ news) : Filed (t.made news p) (insert p live) := by
  have hne : ∀ s ∈ live, s ≠ p := fun s hs heq => hp (heq ▸ hs)
  have hwritten : Buckets (t.written news p).next (t.written news p).strings live
      (t.written news p).home := by
    refine h.buckets.congr (fun s hs => ?_) fun s hs => ?_
    · rw [next_written, Function.update_of_ne (hne s hs)]
    · exact congrArg (fun m : SQString => t.slotOf m.hash) (Function.update_of_ne (hne s hs) ..)
  have hpush := hwritten.push hp rfl
  refine ⟨h.pos, ?_, ?_, ?_, ?_⟩
  · change Buckets ((t.written news p).push p).next ((t.written news p).push p).strings
      (insert p live) ((t.written news p).push p).home
    rw [next_push, home_push]
    exact hpush
  · intro s hin
    rw [val_made, hash_made]
    rcases Finset.mem_insert.mp hin with rfl | hs
    · rw [Function.update_self, Function.update_self]
    · rw [Function.update_of_ne (hne s hs), Function.update_of_ne (hne s hs)]
      exact h.hashed s hs
  · intro s hin s' hin' heq
    rw [val_made] at heq
    rcases Finset.mem_insert.mp hin with hs | hs <;>
      rcases Finset.mem_insert.mp hin' with hs' | hs'
    · rw [hs, hs']
    · rw [hs, Function.update_self, Function.update_of_ne (hne s' hs')] at heq
      exact absurd heq (hnew s' hs')
    · rw [hs', Function.update_self, Function.update_of_ne (hne s hs)] at heq
      exact absurd heq.symm (hnew s hs)
    · rw [Function.update_of_ne (hne s hs), Function.update_of_ne (hne s' hs')] at heq
      exact h.single s hs s' hs' heq
  · rw [Finset.card_insert_of_notMem hp, ← h.count]
    rfl

/-- **`Add` finds the string of its text, or makes it.** -/
theorem Inv.add_spec (h : Inv t live) (news : Bytes) (len : Int) (p : BitVec 64) :
    (∃ s ∈ live, t.val s = text news len ∧ t.Add news len p = some (t, s)) ∨
    ((∀ s ∈ live, t.val s ≠ text news len) ∧ (p ∉ live → ∃ t', t.Add news len p = some (t', p) ∧
      Inv t' (insert p live) ∧ t'.val = Function.update t.val p (text news len))) := by
  rcases h.buckets.seek_spec (fun s => t.val s == text news len)
    (t.slotOf (_hashstr (text news len))) (le_of_eq h.count.symm) with
    ⟨prev, hseek, hno⟩ | ⟨prev, s, hseek, hs, -, hval, -⟩
  · have hnew : ∀ s ∈ live, t.val s ≠ text news len := by
      intro s hs heq
      have hfalse := hno s hs (by rw [← heq, h.home_eq hs])
      exact beq_eq_false_iff_ne.mp hfalse heq
    refine .inr ⟨hnew, fun hp => ?_⟩
    have hmade := h.toFiled.made hp hnew
    rw [Add]
    simp only [hseek, Option.bind_eq_bind, Option.bind_some]
    by_cases hcrowded : (t.made (text news len) p).slotused >
        (t.made (text news len) p).numofslots
    · rw [if_pos hcrowded]
      obtain ⟨u, hresize, hfiled, hu, hused, hslots⟩ :=
        hmade.resize_spec (Nat.mul_pos hmade.pos Nat.two_pos)
      rw [hresize]
      refine ⟨u, rfl, ⟨hfiled, ?_⟩, by rw [hu, val_made]⟩
      rw [hused, hslots]
      have hload : t.slotused ≤ t.numofslots := h.load
      have hpos : 0 < t.numofslots := h.pos
      change t.slotused + 1 ≤ t.numofslots * 2
      omega
    · rw [if_neg hcrowded]
      exact ⟨_, rfl, ⟨hmade, Nat.le_of_not_lt hcrowded⟩, val_made t _ p⟩
  · refine .inl ⟨s, hs, beq_iff_eq.mp hval, ?_⟩
    rw [Add]
    simp only [hseek, Option.bind_eq_bind, Option.bind_some]
    rfl

theorem unlink_spec (hbuckets : Buckets t.next t.strings live t.home) {prev : Option (BitVec 64)}
    {s : BitVec 64} (hbeh : Behind t.next (t.strings (t.home s)) prev s) :
    Same t (t.unlink (t.home s) prev s) ∧
      Buckets (t.unlink (t.home s) prev s).next (t.unlink (t.home s) prev s).strings
        (live.erase s) t.home := by
  cases prev with
  | none => exact ⟨⟨rfl, rfl, rfl, rfl⟩, hbuckets.behead hbeh⟩
  | some q =>
    have hfield {α : Type} (f : SQString → α) (m : SQString) :
        (fun x => f (Function.update t.mem q m x)) =
          Function.update (fun x => f (t.mem x)) q (f m) :=
      Function.comp_update f t.mem q m
    refine ⟨⟨?_, ?_, rfl, rfl⟩, ?_⟩
    · exact (hfield SQString.val _).trans (Function.update_eq_self q t.val)
    · exact (hfield SQString.hash _).trans (Function.update_eq_self q t.hash)
    · have hnext : (t.unlink (t.home s) (some q) s).next = Function.update t.next q (t.next s) :=
        hfield SQString.next _
      rw [hnext]
      exact hbuckets.unlink hbeh

/-- **`Remove` takes a live string out, and no other.** -/
theorem Inv.remove_spec (h : Inv t live) {bs : BitVec 64} (hbs : bs ∈ live) (freed : SQString) :
    ∃ t', t.Remove bs freed = some t' ∧ Inv t' (live.erase bs) ∧
      ∀ s ∈ live.erase bs, t'.val s = t.val s := by
  obtain ⟨prev, hseek, hbeh⟩ := h.buckets.seek_of_mem hbs (p := (· == bs)) (beq_self_eq_true bs)
    (fun s _ hs => beq_iff_eq.mp hs) (le_of_eq h.count.symm)
  obtain ⟨hsame, hbuckets⟩ := unlink_spec h.buckets hbeh
  rw [Remove]
  have hslot : t.slotOf (t.hash bs) = t.home bs := rfl
  simp only [hslot, hseek, Option.bind_eq_bind, Option.bind_some]
  generalize t.unlink (t.home bs) prev bs = u at hsame hbuckets
  -- what `freed` is does not show in a live string
  have hmem (s : BitVec 64) (hs : s ∈ live.erase bs) :
      Function.update u.mem bs freed s = u.mem s :=
    Function.update_of_ne (Finset.ne_of_mem_erase hs) ..
  have hval (s : BitVec 64) (hs : s ∈ live.erase bs) :
      (Function.update u.mem bs freed s).val = t.val s := by
    rw [hmem s hs, ← hsame.val]
    rfl
  have hhash (s : BitVec 64) (hs : s ∈ live.erase bs) :
      (Function.update u.mem bs freed s).hash = t.hash s := by
    rw [hmem s hs, ← hsame.hash]
    rfl
  refine ⟨_, rfl, ⟨⟨?_, ?_, fun s hs => ?_, fun s hs s' hs' heq => ?_, ?_⟩, ?_⟩, hval⟩
  · exact hsame.numofslots ▸ h.pos
  · refine hbuckets.congr (fun s hs => congrArg SQString.next (hmem s hs)) fun s hs => ?_
    rw [home, home, slotOf, slotOf]
    change (Function.update u.mem bs freed s).hash.toNat &&& (u.numofslots - 1) = _
    rw [hhash s hs, hsame.numofslots]
  · have heq := h.hashed s (Finset.mem_of_mem_erase hs)
    rw [← hhash s hs, ← hval s hs] at heq
    exact heq
  · have heq' : t.val s' = t.val s := by rw [← hval s' hs', ← hval s hs]; exact heq
    exact h.single s (Finset.mem_of_mem_erase hs) s' (Finset.mem_of_mem_erase hs') heq'
  · rw [Finset.card_erase_of_mem hbs, ← h.count, ← hsame.slotused]
  · have hload := h.load
    rw [← hsame.slotused, ← hsame.numofslots] at hload
    exact le_trans (Nat.sub_le _ _) hload

end SQStringTable

end Autocom.Squirrel
