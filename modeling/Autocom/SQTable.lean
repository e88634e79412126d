import Autocom.Lib.Scatter
import Mathlib.Data.Nat.Bitwise

/-! # `SQTable`, the table of the script language

A closed hash table: the nodes are one array, a node that meets another in its
main position goes to a free one and is linked in. Null is `none`, an address is
an index. What the objects behind the addresses hold and never change is in
`Heap`. The outer `none` of an operation is a loop that does not end, a null
dereference or a failing assertion; none of them happens, which is proved. -/
namespace Autocom.Squirrel
open Autocom.Lib.Links (search)

/-! ## Objects -/

inductive SQObjectType
  | OT_INTEGER
  | OT_FLOAT
  | OT_BOOL
  | OT_STRING
  | OT_TABLE
  | OT_ARRAY
  | OT_USERDATA
  | OT_CLOSURE
  | OT_NATIVECLOSURE
  | OT_GENERATOR
  | OT_USERPOINTER
  | OT_THREAD
  | OT_FUNCPROTO
  | OT_CLASS
  | OT_INSTANCE
  | OT_WEAKREF
  | OT_OUTER
  deriving DecidableEq

/-- An object other than null; `raw` is `_unVal.raw`. -/
structure SQObject where
  type : SQObjectType
  raw : BitVec 64
  deriving DecidableEq

abbrev SQObjectPtr := Option SQObject

/-- `_string(key)->_hash`, `(SQInteger)_float(key)` and `_weakref(o)->_obj`. -/
structure Heap where
  hash : BitVec 64 → BitVec 64
  truncate : BitVec 64 → BitVec 64
  referent : BitVec 64 → SQObjectPtr

def hashptr (p : BitVec 64) : BitVec 64 := p.sshiftRight 3

def HashObj (heap : Heap) : SQObjectPtr → BitVec 64
  | none => hashptr 0
  | some ⟨.OT_STRING, raw⟩ => heap.hash raw
  | some ⟨.OT_FLOAT, raw⟩ => heap.truncate raw
  | some ⟨.OT_BOOL, raw⟩ | some ⟨.OT_INTEGER, raw⟩ => raw
  | some ⟨_, raw⟩ => hashptr raw

def realval (heap : Heap) : SQObjectPtr → SQObjectPtr
  | some ⟨.OT_WEAKREF, raw⟩ => heap.referent raw
  | o => o

/-! ## The table -/

structure HashNode where
  key : SQObjectPtr
  val : SQObjectPtr
  next : Option Nat

def HashNode.null : HashNode := ⟨none, none, none⟩

structure SQTable where
  firstfree : Nat
  nodes : Nat → HashNode
  numofnodes : Nat
  usednodes : Nat

def MINPOWER2 : Nat := 4

/-- `HashObj(key) & (n - 1)`. -/
def mainPosition (heap : Heap) (n : Nat) (key : SQObjectPtr) : Nat :=
  (HashObj heap key).toNat &&& (n - 1)

theorem mainPosition_lt (heap : Heap) {n : Nat} (hn : 0 < n) (key : SQObjectPtr) :
    mainPosition heap n key < n :=
  Nat.lt_of_le_of_lt Nat.and_le_right (Nat.sub_lt hn Nat.one_pos)

namespace SQTable

def key (t : SQTable) (i : Nat) : SQObjectPtr := (t.nodes i).key
def val (t : SQTable) (i : Nat) : SQObjectPtr := (t.nodes i).val
def next (t : SQTable) (i : Nat) : Option Nat := (t.nodes i).next

def setNode (t : SQTable) (i : Nat) (n : HashNode) : SQTable :=
  { t with nodes := Function.update t.nodes i n }

def setKey (t : SQTable) (i : Nat) (key : SQObjectPtr) : SQTable :=
  t.setNode i { t.nodes i with key := key }

def setVal (t : SQTable) (i : Nat) (val : SQObjectPtr) : SQTable :=
  t.setNode i { t.nodes i with val := val }

def setNext (t : SQTable) (i : Nat) (next : Option Nat) : SQTable :=
  t.setNode i { t.nodes i with next := next }

def AllocNodes (nSize : Nat) : SQTable :=
  ⟨nSize - 1, fun _ => HashNode.null, nSize, 0⟩

/-- `while(nInitialSize>pow2size)pow2size=pow2size<<1;` in at most `fuel` turns. -/
def pow2size (nInitialSize : Nat) : Nat → Nat → Nat
  | 0, size => size
  | fuel + 1, size => if nInitialSize > size then pow2size nInitialSize fuel (size <<< 1) else size

def Create (nInitialSize : Nat) : SQTable :=
  AllocNodes (pow2size nInitialSize nInitialSize MINPOWER2)

def CountUsed (t : SQTable) : Nat := t.usednodes

section
variable (heap : Heap)

/-- `_Get(key, HashObj(key) & (_numofnodes - 1))`: the node, or `some none`. -/
def _Get (t : SQTable) (key : SQObjectPtr) : Option (Option Nat) :=
  search t.next (fun i => t.key i == key) t.numofnodes (mainPosition heap t.numofnodes key)

/-- The object that `val` is set to, `some none` for `false`. -/
def Get (t : SQTable) (key : SQObjectPtr) : Option (Option SQObjectPtr) :=
  if key = none then some none
  else do
    let n ← t._Get heap key
    return n.map fun n => realval heap (t.val n)

def Set (t : SQTable) (key val : SQObjectPtr) : Option (SQTable × Bool) := do
  match ← t._Get heap key with
  | some n => return (t.setVal n val, true)
  | none => return (t, false)

/-! ## `NewSlot` and `Rehash` -/

/-- The loop that corrects `_firstfree`; `false` when it breaks. -/
def correctFirstfree (nodes : Nat → HashNode) : Nat → Nat × Bool
  | 0 => (0, decide ((nodes 0).key = none ∧ (nodes 0).next = none))
  | i + 1 =>
    if (nodes (i + 1)).key = none ∧ (nodes (i + 1)).next = none then (i + 1, true)
    else correctFirstfree nodes i

/-- The loop that finds the node before `mp`. -/
def findPrevious (t : SQTable) (othern mp : Nat) : Option Nat :=
  (search t.next (fun i => t.next i == some mp) t.numofnodes othern).join

/-- From `mp = &_nodes[h]` to `mp->key = key`: the table and `mp`. -/
def place (t : SQTable) (key : SQObject) : Option (SQTable × Nat) :=
  let mp := mainPosition heap t.numofnodes (some key)
  match t.key mp with
  | none => some (t.setKey mp (some key), mp)
  | some mpkey =>
    let n := t.firstfree
    let mph := mainPosition heap t.numofnodes (some mpkey)
    if mp > n ∧ mph ≠ mp then
      -- the colliding node moves to the free position
      (t.findPrevious mph mp).map fun othern =>
        let t := t.setNext othern (some n)
        let t := t.setNode n ⟨t.key mp, t.val mp, t.next mp⟩
        ((t.setNode mp HashNode.null).setKey mp (some key), mp)
    else
      let t := t.setNext n (t.next mp)
      let t := t.setNext mp (some n)
      some (t.setKey n (some key), n)

/-- What `NewSlot` comes to before it rehashes: the key was there, a slot has been
made for it, or its node is there without the value and no place is free. -/
inductive Slot
  | found (t : SQTable)
  | made (t : SQTable)
  | full (t : SQTable)

def slot (t : SQTable) (key : SQObject) (val : SQObjectPtr) : Option Slot := do
  match ← t._Get heap (some key) with
  | some n => return .found (t.setVal n val)
  | none =>
    let (t, mp) ← t.place heap key
    match correctFirstfree t.nodes t.firstfree with
    | (i, true) =>
      return .made { t.setVal mp val with firstfree := i, usednodes := t.usednodes + 1 }
    | (i, false) => return .full { t with firstfree := i }

/-- The size of the new array; `none` when the table stays as it is. -/
def rehashSize (t : SQTable) (force : Bool) : Option Nat :=
  let oldsize := if t.numofnodes < 4 then 4 else t.numofnodes
  let nelems := t.CountUsed
  if nelems ≥ oldsize - oldsize / 4 then some (oldsize * 2)
  else if nelems ≤ oldsize / 4 ∧ oldsize > MINPOWER2 then some (oldsize / 2)
  else if force then some oldsize
  else none

/-- `Rehash`, with the `NewSlot` that it calls. -/
def rehash (newSlot : SQTable → SQObject → SQObjectPtr → Option (SQTable × Bool))
    (t : SQTable) (force : Bool) : Option SQTable :=
  let oldsize := if t.numofnodes < 4 then 4 else t.numofnodes
  match t.rehashSize force with
  | none => some t
  | some size =>
    (List.range oldsize).foldlM (fun nt i =>
      match t.key i with
      | none => some nt
      | some key => (newSlot nt key (t.val i)).map Prod.fst) (AllocNodes size)

/-- `NewSlot`; the number bounds how deep the calls nest. -/
def newSlot : Nat → SQTable → SQObject → SQObjectPtr → Option (SQTable × Bool)
  | 0, _, _, _ => none
  | depth + 1, t, key, val => do
    match ← t.slot heap key val with
    | .found t => return (t, false)
    | .made t => return (t, true)
    | .full t =>
      let t ← t.rehash (newSlot depth) true
      newSlot depth t key val

def NewSlot (t : SQTable) (key : SQObject) (val : SQObjectPtr) : Option (SQTable × Bool) :=
  newSlot heap 2 t key val

def Rehash (t : SQTable) (force : Bool) : Option SQTable := t.rehash (NewSlot heap) force

def Remove (t : SQTable) (key : SQObject) : Option SQTable := do
  match ← t._Get heap (some key) with
  | none => return t
  | some n =>
    Rehash heap { (t.setVal n none).setKey n none with usednodes := t.usednodes - 1 } false

def _ClearNodes (t : SQTable) : SQTable :=
  { t with nodes := fun i => { t.nodes i with key := none, val := none } }

def Clear (t : SQTable) : Option SQTable :=
  Rehash heap { t._ClearNodes with usednodes := 0 } true

/-! ## Iteration -/

/-- `Next` from `idx` on, in at most `fuel` turns: the index for the next call, the
key and the value; `none` for -1. -/
def nextFrom (t : SQTable) (getweakrefs : Bool) : Nat → Nat → Option (Nat × SQObject × SQObjectPtr)
  | 0, _ => none
  | fuel + 1, idx =>
    if idx < t.numofnodes then
      match t.key idx with
      | some key => some (idx + 1, key, if getweakrefs then t.val idx else realval heap (t.val idx))
      | none => nextFrom t getweakrefs fuel (idx + 1)
    else none

def Next (t : SQTable) (getweakrefs : Bool) (refpos : Nat) :
    Option (Nat × SQObject × SQObjectPtr) :=
  t.nextFrom heap getweakrefs (t.numofnodes - refpos) refpos

end

end SQTable

end Autocom.Squirrel
