import Autocom.CallFrame
import Autocom.HexText
import Autocom.Receive

/-! # What a callback is told

`_onReceived` passes each stored chunk on for the script function named by `_outproc`,
as hex digits when `_binary` is set and as a C string otherwise. The flag belongs
to no thread: `setbinary` writes it, and so do `write` of an array and `read` once
it has an array to hand on, while the IO thread may be anywhere between `putIn`
and the text it makes. So the text is made in a step of its own. -/
namespace Autocom.Callbacks
open Autocom Autocom.Lib.Lts
open Autocom.Expect (Regex)

/-! ## The device with `_binary` -/

/-- A chunk that `_notifyScript` was called for, and `_binary` when its text was made. -/
structure Told where
  shot : Bytes
  binary : Int
  deriving DecidableEq

/-- The argument of the callback: `chunk.c_str()`. -/
def Told.text (t : Told) : CString :=
  c_str (if t.binary ≠ 0 then Conv.toString t.shot else cstr t.shot)

/-- `fresh` is the chunk that `_onReceived` has been given and has made no text of. -/
structure Sys where
  sys : Machine.Sys
  binary : Int
  fresh : Option Bytes
  told : List Told

def Sys.init (cred : CString) (proc : Option CString) : Sys :=
  ⟨Machine.Sys.init cred proc, 0, none, []⟩

inductive Act
  | machine (a : Machine.Act)
  | convert
  | setbinary (t : Int)

/-- The call that a step is part of, and where its thread was. -/
def calling (s : Machine.Sys) : Machine.Act → Option (CallPc × CallAct)
  | .io (.callback a) => match s.io with
    | .notifying pc => some (pc, a)
    | _ => none
  | .script (.act a) => match s.script with
    | .running pc => some (pc, a)
    | _ => none
  | _ => none

/-- The calls that write `_binary` besides `setbinary`; `read` does when its
count is not zero. -/
def setsBinary : CallPc × CallAct → Bool
  | (_, .call (.writeArray _) _) => true
  | (_, .call (.writereadArray _ _) _) => true
  | (.readMake max, .turn _) => decide (0 < max)
  | _ => false

def binaryAfter (h : Sys) (a : Machine.Act) : Int :=
  if (calling h.sys a).any setsBinary then 1 else h.binary

/-- The chunk of a `putIn`. -/
def putting (s : Machine.Sys) : Machine.Act → Option Bytes
  | .io .step => match s.io with
    | .storing shot => some shot
    | _ => none
  | _ => none

def freshAfter (h : Sys) (a : Machine.Act) : Option Bytes :=
  match putting h.sys a with
  | some shot => if h.sys.dev.outproc = [] then none else some shot
  | none => h.fresh

def isIo : Machine.Act → Bool
  | .io _ => true
  | .script _ => false

def isNotifying : Machine.IoPc → Bool
  | .notifying _ => true
  | _ => false

/-- A thread is between two calls of the script. -/
def idle (h : Sys) : Bool :=
  (match h.sys.script with
    | .running (.ready _) => true
    | _ => false) ||
  (match h.sys.io with
    | .notifying (.ready _) => h.fresh.isNone
    | _ => false)

/-- While a chunk is fresh the IO thread is about to make its text. -/
def step (regex : Regex) (h : Sys) : Act → Option Sys
  | .machine a =>
    if isIo a ∧ h.fresh.isSome then none
    else (Machine.step regex h.sys a).map fun t =>
      ⟨t, binaryAfter h a, freshAfter h a, h.told⟩
  | .convert =>
    if isNotifying h.sys.io then
      h.fresh.map fun shot => { h with fresh := none, told := h.told ++ [⟨shot, h.binary⟩] }
    else none
  | .setbinary t => if idle h then some { h with binary := t } else none

/-! ## What a step can be -/

inductive Move (regex : Regex) (h : Sys) : Act → Sys → Prop
  | machine (a : Machine.Act) (t : Machine.Sys) (hstep : Machine.step regex h.sys a = some t)
    (hio : isIo a = true → h.fresh = none) :
    Move regex h (.machine a) ⟨t, binaryAfter h a, freshAfter h a, h.told⟩
  | convert (shot : Bytes) (hfresh : h.fresh = some shot) :
    Move regex h .convert { h with fresh := none, told := h.told ++ [⟨shot, h.binary⟩] }
  | setbinary (t : Int) : Move regex h (.setbinary t) { h with binary := t }

theorem step_move {regex : Regex} {h h' : Sys} {a : Act} (hstep : step regex h a = some h') :
    Move regex h a h' := by
  cases a with
  | machine a =>
    simp only [step] at hstep
    split at hstep
    · cases hstep
    · next hio =>
      obtain ⟨t, ht, rfl⟩ := Option.map_eq_some_iff.mp hstep
      refine .machine a t ht fun ha => ?_
      cases hfresh : h.fresh with
      | none => rfl
      | some shot => exact absurd ⟨ha, by rw [hfresh]; rfl⟩ hio
  | convert =>
    simp only [step] at hstep
    split at hstep
    · obtain ⟨shot, hshot, rfl⟩ := Option.map_eq_some_iff.mp hstep
      exact .convert shot hshot
    · cases hstep
  | setbinary t =>
    simp only [step] at hstep
    split at hstep
    · cases hstep; exact .setbinary t
    · cases hstep

/-- Only `putIn` stores. -/
theorem machine_stored {regex : Regex} {s t : Machine.Sys} {a : Machine.Act}
    (h : Machine.step regex s a = some t) :
    t.dev.log.stored = s.dev.log.stored ++ (putting s a).getD [] := by
  refine Machine.step_induct
    (Q := fun u => u.dev.log.stored = s.dev.log.stored ++ (putting s a).getD []) ?_ ?_ ?_ h
  · exact fun _ hu => hu
  · rintro b d pc rfl hmove
    obtain ⟨dev, sc, io⟩ := s
    cases hmove with
    | stored shot pc hpc => rfl
    | callback pc pc' c d' hcall =>
      exact (callStep_effect hcall).moved.frame.2.2.2.trans (List.append_nil _).symm
    | left d' hd => rcases hd with rfl | rfl <;> exact (List.append_nil _).symm
    | _ => exact (List.append_nil _).symm
  · rintro b d pc io rfl hmove
    obtain ⟨dev, sc, io₀⟩ := s
    cases hmove with
    | call pc pc' c d' hcall =>
      exact (callStep_effect hcall).moved.frame.2.2.2.trans (List.append_nil _).symm
    | _ => exact (List.append_nil _).symm

/-! ## The function stays named -/

/-- `setproc` with a null pointer or an empty name. -/
def unnames : CallAct → Bool
  | .call (.setproc s) _ => decide ((s.map CString.bytes).getD [] = [])
  | _ => false

/-- The step leaves a callback function named. -/
def keepsNamed : Act → Bool
  | .machine (.io (.callback a)) => !unnames a
  | .machine (.script (.act a)) => !unnames a
  | _ => true

theorem callStep_outproc {regex : Regex} {d d' : Dev} {pc pc' : CallPc} {a : CallAct}
    (h : callStep regex d pc a = some (d', pc')) (ha : (!unnames a) = true)
    (hd : d.outproc ≠ []) : d'.outproc ≠ [] := by
  cases a with
  | turn t => rw [(turnCall_frame h).outproc]; exact hd
  | call c tick =>
    cases pc with
    | ready ret =>
      have hstart : startCall d tick c = (d', pc') := Option.some.inj h
      cases c with
      | setproc s => cases hstart; exact of_decide_eq_false (Bool.not_eq_true' _ ▸ ha)
      | writeArray | writereadArray | binwaitt | close =>
        simp only [startCall] at hstart
        split at hstart <;> cases hstart <;> exact hd
      | _ => cases hstart; exact hd
    | _ => cases h

theorem machine_outproc {regex : Regex} {s t : Machine.Sys} {a : Machine.Act}
    (h : Machine.step regex s a = some t) (ha : keepsNamed (.machine a) = true)
    (hs : s.dev.outproc ≠ []) : t.dev.outproc ≠ [] := by
  refine Machine.step_induct (Q := fun u => u.dev.outproc ≠ []) ?_ ?_ ?_ h
  · exact fun _ hu => hu
  · rintro b d pc rfl hmove
    obtain ⟨dev, sc, io⟩ := s
    cases hmove with
    | callback pc pc' c d' hcall => exact callStep_outproc hcall ha hs
    | left d' hd => rcases hd with rfl | rfl <;> exact hs
    | _ => exact hs
  · rintro b d pc io rfl hmove
    obtain ⟨dev, sc, io₀⟩ := s
    cases hmove with
    | call pc pc' c d' hcall => exact callStep_outproc hcall ha hs
    | _ => exact hs

/-! ## No chunk is told twice or left out -/

structure Heard (h : Sys) : Prop where
  named : h.sys.dev.outproc ≠ []
  whole : h.told.flatMap Told.shot ++ h.fresh.getD [] = h.sys.dev.log.stored

theorem Heard.init (cred : CString) {proc : CString} (hproc : proc.bytes ≠ []) :
    Heard (Sys.init cred (some proc)) :=
  ⟨hproc, rfl⟩

/-- A chunk that is put is fresh, and was not before. -/
theorem getD_freshAfter {h : Sys} {a : Machine.Act} (hnamed : h.sys.dev.outproc ≠ [])
    (hio : isIo a = true → h.fresh = none) :
    (freshAfter h a).getD [] = h.fresh.getD [] ++ (putting h.sys a).getD [] := by
  unfold freshAfter
  cases hput : putting h.sys a with
  | none => simp
  | some shot =>
    have ha : isIo a = true := by
      cases a with
      | io b => rfl
      | script b => cases hput
    have hnone := hio ha
    simp [hnamed, hnone]

theorem step_heard {regex : Regex} {h h' : Sys} {a : Act} (hh : Heard h) (ha : keepsNamed a = true)
    (hstep : step regex h a = some h') : Heard h' := by
  cases step_move hstep with
  | machine a t ht hio =>
    refine ⟨machine_outproc ht ha hh.named, ?_⟩
    rw [machine_stored ht, ← hh.whole, List.append_assoc, ← getD_freshAfter hh.named hio]
  | convert shot hfresh =>
    refine ⟨hh.named, ?_⟩
    have hwhole := hh.whole
    rw [hfresh] at hwhole
    rw [← hwhole]
    simp
  | setbinary t => exact ⟨hh.named, hh.whole⟩

/-- **The callbacks are about what was stored**, chunk after chunk, but for one
that is fresh. -/
theorem run_heard {regex : Regex} {h h' : Sys} {acts : List Act} (hh : Heard h)
    (hnamed : ∀ a ∈ acts, keepsNamed a = true) (hrun : run (step regex) h acts = some h') :
    Heard h' :=
  run_keeps (fun _ _ _ => step_heard) hh
    (meets_of_forall (C := fun a => keepsNamed a = true) hnamed h) hrun

/-! ## Reading the texts back -/

/-- The chunk read off the text by who knows how it was made; `val` is what the
local of `toBinary` holds. -/
def Told.read (val : BitVec 32) (t : Told) : Bytes :=
  if t.binary ≠ 0 then Conv.toBinary val t.text else t.text.bytes

theorem read_hex (val : BitVec 32) {t : Told} (h : t.binary ≠ 0) : t.read val = t.shot := by
  rw [Told.read, if_pos h, Told.text, if_pos h]
  exact Conv.toBinary_c_str val t.shot

theorem cstr_cstr (buf : Bytes) : cstr (cstr buf) = cstr buf := cstr_eq_self (not_mem_cstr buf)

/-- A text is a drain of its chunk by a text call, hex digits one by a call that
reads bytes. -/
theorem read_handed (val : BitVec 32) (t : Told) :
    t.read val = (Drain.mk t.shot (decide (t.binary = 0))).handed := by
  by_cases hbinary : t.binary = 0
  · rw [Told.read, if_neg (not_not.mpr hbinary), Told.text, if_neg (not_not.mpr hbinary)]
    simp [c_str, cstr_cstr, Drain.handed, hbinary]
  · rw [read_hex val hbinary]
    simp [Drain.handed, hbinary]

/-- **The callbacks give the received bytes back exactly as long as no chunk that
was told as text holds a zero byte**, whatever the interleaving with the calls
that change the mode. -/
theorem callbacks_whole_iff (regex : Regex) (cred proc : CString) (val : BitVec 32)
    (acts : List Act) (h : Sys) (hproc : proc.bytes ≠ [])
    (hnamed : ∀ a ∈ acts, keepsNamed a = true)
    (hrun : run (step regex) (Sys.init cred (some proc)) acts = some h) :
    h.told.flatMap (Told.read val) ++ h.fresh.getD [] = h.sys.dev.log.stored ↔
      ∀ t ∈ h.told, t.binary = 0 → 0 ∉ t.shot := by
  have hheard := run_heard (Heard.init cred hproc) hnamed hrun
  let drain : Told → Drain := fun t => ⟨t.shot, decide (t.binary = 0)⟩
  have hread : h.told.flatMap (Told.read val) = (h.told.map drain).flatMap Drain.handed := by
    rw [List.flatMap_map]
    exact List.flatMap_congr fun t _ => read_handed val t
  have hshot : h.told.flatMap Told.shot = (h.told.map drain).flatMap Drain.buf := by
    rw [List.flatMap_map]
  rw [← hheard.whole, List.append_left_inj, hread, hshot, Receive.flatMap_handed_eq_iff,
    List.forall_mem_map]
  refine forall₂_congr fun t _ => ?_
  rw [Receive.handed_eq_buf_iff, decide_eq_true_iff]

def machine (acts : List Machine.Act) : List Act := acts.map .machine

/-- A chunk with a zero byte arrives, `setbinary(1)` comes between `putIn` and its
text, and the next chunk is text again. -/
def switches : List Act :=
  machine Machine.connect ++
  machine [.io .step, .io .step, .io (.received (some [0x61, 0])), .io .step] ++
  [.setbinary 1, .convert, .setbinary 0] ++
  machine [.io .step, .io .step, .io .step, .io (.received (some [0x62])), .io .step] ++
  [.convert]

theorem callbacks_whole_iff_switches :
    ∃ h, run (step fun _ => none) (Sys.init Machine.ttyCred (some Machine.charC)) switches =
        some h ∧
      (h.told.flatMap (Told.read 0) ++ h.fresh.getD [] = h.sys.dev.log.stored ↔
        ∀ t ∈ h.told, t.binary = 0 → 0 ∉ t.shot) :=
  ⟨_, rfl, callbacks_whole_iff (fun _ => none) Machine.ttyCred Machine.charC 0 switches _
    (by decide) (by decide) rfl⟩

/-! ## Once the mode is set -/

/-- The step does not go back to text. -/
def keepsHex : Act → Bool
  | .setbinary t => decide (t ≠ 0)
  | _ => true

/-- What has been told since `told` was told as hex digits. -/
structure Hex (told : List Told) (h : Sys) : Prop where
  mode : h.binary ≠ 0
  since : ∃ new, h.told = told ++ new ∧ ∀ t ∈ new, t.binary ≠ 0

theorem step_hex {regex : Regex} {told : List Told} {h h' : Sys} {a : Act} (hh : Hex told h)
    (ha : keepsHex a = true) (hstep : step regex h a = some h') : Hex told h' := by
  obtain ⟨hmode, new, htold, hnew⟩ := hh
  cases step_move hstep with
  | machine a t ht hio =>
    refine ⟨?_, new, htold, hnew⟩
    change binaryAfter h a ≠ 0
    unfold binaryAfter
    split
    · decide
    · exact hmode
  | convert shot hfresh =>
    refine ⟨hmode, new ++ [⟨shot, h.binary⟩], by simp [htold], fun t ht => ?_⟩
    rcases List.mem_append.mp ht with ht | ht
    · exact hnew t ht
    · rw [List.mem_singleton.mp ht]
      exact hmode
  | setbinary t => exact ⟨of_decide_eq_true ha, new, htold, hnew⟩

/-- **Once `_binary` is set, by whichever call, and until `setbinary(0)`**, each
callback is told hex digits, and `toBinary` of them is every byte that the earlier
callbacks were not about. -/
theorem hex_callbacks_whole (regex : Regex) (cred proc : CString) (val : BitVec 32)
    (before after : List Act) (h h' : Sys) (hproc : proc.bytes ≠ [])
    (hnamed : ∀ a ∈ before ++ after, keepsNamed a = true)
    (hbefore : run (step regex) (Sys.init cred (some proc)) before = some h)
    (hmode : h.binary ≠ 0) (hhex : ∀ a ∈ after, keepsHex a = true)
    (hafter : run (step regex) h after = some h') :
    ∃ new, h'.told = h.told ++ new ∧
      h.told.flatMap Told.shot ++ new.flatMap (fun t => Conv.toBinary val t.text) ++
        h'.fresh.getD [] = h'.sys.dev.log.stored := by
  have hheard := run_heard (Heard.init cred hproc) hnamed (run_append hbefore hafter)
  have hsince : Hex h.told h' :=
    run_keeps (fun _ _ _ => step_hex) ⟨hmode, [], by simp, by simp⟩
      (meets_of_forall (C := fun a => keepsHex a = true) hhex h) hafter
  obtain ⟨-, new, htold, hnew⟩ := hsince
  have hread : new.flatMap (fun t => Conv.toBinary val t.text) = new.flatMap Told.shot := by
    refine List.flatMap_congr fun t ht => ?_
    have hshot := read_hex val (hnew t ht)
    rwa [Told.read, if_pos (hnew t ht)] at hshot
  refine ⟨new, htold, ?_⟩
  rw [hread, ← List.flatMap_append, ← htold]
  exact hheard.whole

/-- The script writes an array while a chunk is fresh. -/
def arrayWrite : List Act :=
  machine Machine.connect ++
  machine [.io .step, .io .step, .io (.received (some [0x61])), .io .step,
    .script (.act (.call (.writeArray [0x62]) 0))]

/-- The array goes out, and a chunk with a zero byte follows. -/
def zeroFollows : List Act :=
  [.convert] ++
  machine [.io .step, .io .step, .io .step, .io .step, .io .step, .io (.wrote 1), .io (.sent 0),
    .io (.received (some [0, 0x63])), .io .step] ++
  [.convert]

theorem hex_callbacks_whole_arrayWrite :
    ∃ h h', run (step fun _ => none) (Sys.init Machine.ttyCred (some Machine.charC)) arrayWrite =
        some h ∧ run (step fun _ => none) h zeroFollows = some h' ∧
      ∃ new, h'.told = h.told ++ new ∧
        h.told.flatMap Told.shot ++ new.flatMap (fun t => Conv.toBinary 0 t.text) ++
          h'.fresh.getD [] = h'.sys.dev.log.stored :=
  ⟨_, _, rfl, rfl, hex_callbacks_whole (fun _ => none) Machine.ttyCred Machine.charC 0 arrayWrite
    zeroFollows _ _ (by decide) (by decide) rfl (by decide : (1 : Int) ≠ 0)
    (by decide) rfl⟩

end Autocom.Callbacks
