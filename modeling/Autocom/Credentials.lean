import Autocom.Descriptors

/-! # What `open` makes of the credentials

`open` cuts the stored string with `strtok` and hands the pieces on unchecked. The
first cut leaves the device alone in the string, so the second `open` has no speed
to read, and a string that never had three fields has no mode, or not even a
speed. The speed goes through `atoi`, which gives the number in the text only if
the text is a number and the number an `int`. -/
namespace Autocom.Credentials
open Autocom Autocom.Lib.Lts SerialComm Descriptors

/-! ## The fields of a string -/

/-- The pieces between commas that are not empty. -/
def tokens (s : Bytes) : List Bytes := (s.splitOn COMMA).filter fun t => t ≠ []

/-- The number that a text of nothing but digits is. -/
def digitsValue (s : Bytes) : Option Nat :=
  if s ≠ [] ∧ s.all isDigit = true then
    some (s.foldl (fun n c => 10 * n + (c.toNat - 0x30)) 0)
  else none

/-- The decimal value of a text: digits, with a sign or without, behind white space
if there is any. -/
def decimalValue (s : Bytes) : Option Int :=
  match s.dropWhile Conv.isSpace with
  | [] => none
  | c :: t =>
    if c = 0x2d then (digitsValue t).map fun n : Nat => -(n : Int)
    else if c = 0x2b then (digitsValue t).map fun n : Nat => (n : Int)
    else (digitsValue (c :: t)).map fun n : Nat => (n : Int)

def IsInt (v : Int) : Prop := -2 ^ 31 ≤ v ∧ v < 2 ^ 31

/-- The decimal text of an `int`. -/
def IsIntText (s : Bytes) : Prop := ∃ v, decimalValue s = some v ∧ IsInt v

/-- `device,speed,mode`. -/
structure Triple (cred device speed mode : Bytes) : Prop where
  eq : cred = device ++ COMMA :: (speed ++ COMMA :: mode)
  device : device ≠ [] ∧ COMMA ∉ device
  speed : speed ≠ [] ∧ COMMA ∉ speed
  mode : mode ≠ [] ∧ COMMA ∉ mode

theorem tokens_comma (s : Bytes) : tokens (COMMA :: s) = tokens s := by
  have hsplit : (COMMA :: s).splitOn COMMA = [] :: s.splitOn COMMA :=
    List.splitOn_append_cons_self_of_not_mem List.not_mem_nil _
  simp [tokens, hsplit]

theorem tokens_single {t : Bytes} (ht : t ≠ []) (hcomma : COMMA ∉ t) : tokens t = [t] := by
  simp [tokens, List.splitOn_eq_singleton hcomma, ht]

theorem tokens_cons {t : Bytes} (ht : t ≠ []) (hcomma : COMMA ∉ t) (s : Bytes) :
    tokens (t ++ COMMA :: s) = t :: tokens s := by
  simp [tokens, List.splitOn_append_cons_self_of_not_mem hcomma, ht]

theorem tokens_triple {cred device speed mode : Bytes} (h : Triple cred device speed mode) :
    tokens cred = [device, speed, mode] := by
  rw [h.eq, tokens_cons h.device.1 h.device.2, tokens_cons h.speed.1 h.speed.2,
    tokens_single h.mode.1 h.mode.2]

theorem tokens_dropWhile (s : Bytes) : tokens (s.dropWhile (· == COMMA)) = tokens s := by
  induction s with
  | nil => rfl
  | cons c s ih =>
    by_cases hc : c = COMMA
    · rw [hc, List.dropWhile_cons_of_pos (by simp), ih, tokens_comma]
    · rw [List.dropWhile_cons_of_neg (by simpa using hc)]

/-- **`strtok` takes the tokens one by one.** -/
theorem strtok_tokens (s : Bytes) :
    (strtok s = none ∧ tokens s = []) ∨
      ∃ tok rest, strtok s = some (tok, rest) ∧ tokens s = tok :: tokens rest := by
  rw [← tokens_dropWhile s]
  unfold strtok
  set t := s.dropWhile (· == COMMA) with ht
  by_cases hnil : t = []
  · left
    simp [hnil, tokens]
  · right
    refine ⟨_, _, if_neg hnil, ?_⟩
    have hcomma : COMMA ∉ t.takeWhile (· != COMMA) := fun hmem => by
      simpa using List.mem_takeWhile_imp hmem
    -- the first character is no comma
    have hne : t.takeWhile (· != COMMA) ≠ [] := by
      obtain ⟨c, cs, hc⟩ := List.exists_cons_of_ne_nil hnil
      have hhead := List.head_dropWhile_not (· == COMMA) (l := s) (by rw [← ht]; exact hnil)
      simp only [← ht, hc, List.head_cons] at hhead
      rw [hc, List.takeWhile_cons_of_pos (by simpa using hhead)]
      exact List.cons_ne_nil _ _
    conv_lhs => rw [← List.takeWhile_append_dropWhile (p := (· != COMMA)) (l := t)]
    cases hrest : t.dropWhile (· != COMMA) with
    | nil => rw [List.append_nil, tokens_single hne hcomma]; rfl
    | cons c rest =>
      have hc : c = COMMA := by
        have hhead := List.head_dropWhile_not (· != COMMA) (l := t) (by simp [hrest])
        simpa [hrest] using hhead
      rw [hc, tokens_cons hne hcomma]
      rfl

/-- The first two fields must be there, the third need not. -/
theorem fields_tokens (s : Bytes) : fields s = match tokens s with
    | device :: speed :: rest => some (device, speed, rest.head?)
    | _ => none := by
  rcases strtok_tokens s with ⟨hnone, htokens⟩ | ⟨device, s₁, hdevice, htokens⟩
  · simp [fields, hnone, htokens]
  · rcases strtok_tokens s₁ with ⟨hnone, htokens₁⟩ | ⟨speed, s₂, hspeed, htokens₁⟩
    · simp [fields, hdevice, hnone, htokens, htokens₁]
    · rcases strtok_tokens s₂ with ⟨hnone, htokens₂⟩ | ⟨mode, s₃, hmode, htokens₂⟩
      · simp [fields, hdevice, hspeed, hnone, htokens, htokens₁, htokens₂]
      · simp [fields, hdevice, hspeed, hmode, htokens, htokens₁, htokens₂]

/-! ## `atoi` -/

theorem decimal_digits {s : Bytes} (h : s.all isDigit = true) :
    decimal s = (s.foldl (fun n c => 10 * n + (c.toNat - 0x30)) 0 : Nat) := by
  have hall : ∀ c ∈ s, isDigit c = true := List.all_eq_true.mp h
  rw [decimal, List.takeWhile_eq_self_iff.mpr hall]
  suffices hfold : ∀ n : Nat, s.foldl (fun (n : Int) c => 10 * n + (c.toNat - 0x30)) n =
      (s.foldl (fun n c => 10 * n + (c.toNat - 0x30)) n : Nat) from hfold 0
  clear h
  induction s with
  | nil => exact fun n => rfl
  | cons c s ih =>
    intro n
    have hc : 0x30 ≤ c.toNat := by
      have hdigit := hall c (by simp)
      simp only [isDigit, Bool.and_eq_true, decide_eq_true_eq] at hdigit
      bv_omega
    rw [List.foldl_cons, List.foldl_cons, ← ih fun b hb => hall b (by simp [hb])]
    congr 1
    omega

theorem decimal_digitsValue {s : Bytes} {n : Nat} (h : digitsValue s = some n) :
    decimal s = n := by
  unfold digitsValue at h
  split at h
  · next hs => rw [decimal_digits hs.2, Option.some.inj h]
  · cases h

/-- `atoi` of a decimal text: a `long` that saturates, cut to 32 bits. -/
theorem atoi_eq {s : Bytes} {v : Int} (h : decimalValue s = some v) :
    atoi s = (BitVec.ofInt 32 (max (-2 ^ 63) (min (2 ^ 63 - 1) v))).toInt := by
  unfold decimalValue at h
  unfold atoi
  cases htext : s.dropWhile Conv.isSpace with
  | nil => rw [htext] at h; cases h
  | cons c t =>
    rw [htext] at h
    simp only at h ⊢
    split at h
    · next hc =>
      obtain ⟨n, hn, rfl⟩ := Option.map_eq_some_iff.mp h
      rw [if_pos hc, decimal_digitsValue hn]
    · next hc =>
      split at h
      · next hc' =>
        obtain ⟨n, hn, rfl⟩ := Option.map_eq_some_iff.mp h
        rw [if_neg hc, if_pos hc', decimal_digitsValue hn]
      · next hc' =>
        obtain ⟨n, hn, rfl⟩ := Option.map_eq_some_iff.mp h
        rw [if_neg hc, if_neg hc', decimal_digitsValue hn]

theorem isInt_atoi (s : Bytes) : IsInt (atoi s) := by
  unfold atoi
  exact ⟨BitVec.le_toInt _, BitVec.toInt_lt⟩

/-- **A decimal text is read as its value exactly if that is an `int`.** -/
theorem atoi_eq_iff {s : Bytes} {v : Int} (h : decimalValue s = some v) :
    atoi s = v ↔ IsInt v := by
  constructor
  · rintro rfl
    exact isInt_atoi s
  · rintro ⟨hlo, hhi⟩
    rw [atoi_eq h, BitVec.toInt_ofInt, show max (-2 ^ 63) (min (2 ^ 63 - 1) v) = v by omega]
    exact Int.bmod_eq_of_le (by omega) (by omega)

/-! ## Calls of `open` and `close` -/

inductive Call
  | open_ (os : OpenOutcome)
  | close
  deriving DecidableEq

def Call.op : Call → Op
  | .open_ os => .open_ os
  | .close => .close

/-- The arguments with which `open` calls `OpenComport`, when it gets there. -/
def openArgs (c : SerialComm) : Option (Bytes × Int × Option Bytes) :=
  (fields c.credentials).map fun f => (f.1, atoi f.2.1, f.2.2)

theorem open_eq (c : SerialComm) (os : OpenOutcome) : c.open_ os = (openArgs c).bind fun a =>
    (c.device.openComport a.1 a.2.1 a.2.2 os).map fun r =>
      (⟨strtokCut c.credentials, r.1⟩, r.2) := by
  cases h : fields c.credentials with
  | none => simp [open_, openArgs, h]
  | some f =>
    cases hr : c.device.openComport f.1 (atoi f.2.1) f.2.2 os <;> simp [open_, openArgs, h, hr]

/-- What one `open` owes to the string `cred` that the object was built from. -/
structure Right (cred : Bytes) (c : SerialComm) (os : OpenOutcome) : Prop where
  returns : (c.open_ os).isSome
  passes : ∀ device speed mode, Triple cred device speed mode →
    ∃ v, decimalValue speed = some v ∧ openArgs c = some (device, v, some mode)
  refuses : (tokens cred).length < 3 → ∀ r, c.open_ os = some r → r.2 ≠ 0

/-- The same of the calls that `open`s are. -/
def RightStep (cred : Bytes) (l : Life) : Op → Prop
  | .open_ os => Right cred l.comm os
  | _ => True

/-- A string of which one `open` can be made: with a mode, and a speed that is the
decimal text of an `int` if it is one of just three fields; or with a speed that
`OpenComport` does not accept. -/
def Openable (cred : Bytes) : Prop :=
  match tokens cred with
  | _ :: _ :: _ :: _ => ∀ device speed mode, Triple cred device speed mode → IsIntText speed
  | [_, speed] => atoi speed ∉ SerialPort.baudrates
  | _ => False

def Call.isOpen : Call → Bool
  | .open_ _ => true
  | .close => false

/-! ## The first `open` -/

/-- `OpenComport` comes back unless it needs the mode and has none. -/
theorem openComport_isSome (p : SerialPort) (device : Bytes) (speed : Int) (mode : Option Bytes)
    (os : OpenOutcome) : (p.openComport device speed mode os).isSome ↔
      speed ∉ SerialPort.baudrates ∨ mode.isSome := by
  unfold SerialPort.openComport
  by_cases hspeed : speed ∈ SerialPort.baudrates
  · rw [if_neg (not_not.mpr hspeed)]
    cases mode with
    | none => simp [hspeed]
    | some mode =>
      cases os.open_ with
      | none => simp only [Option.isSome_some, or_true, iff_true]; split <;> rfl
      | some fd => simp only [Option.isSome_some, or_true, iff_true]; split_ifs <;> rfl
  · simp [hspeed]

theorem not_right_of_fields {cred : Bytes} {c : SerialComm} (h : fields c.credentials = none)
    (os : OpenOutcome) : ¬ Right cred c os := by
  intro hright
  have hreturns := hright.returns
  rw [open_none h os] at hreturns
  cases hreturns

/-- What `open` makes of the first two fields and of a third that may be missing. -/
theorem open_fields {c : SerialComm} {device speed : Bytes} {rest : List Bytes}
    (htokens : tokens c.credentials = device :: speed :: rest) (os : OpenOutcome) :
    openArgs c = some (device, atoi speed, rest.head?) ∧
      c.open_ os = (c.device.openComport device (atoi speed) rest.head? os).map fun r =>
        (⟨strtokCut c.credentials, r.1⟩, r.2) := by
  have hfields := fields_tokens c.credentials
  simp only [htokens] at hfields
  have hargs : openArgs c = some (device, atoi speed, rest.head?) := by rw [openArgs, hfields]; rfl
  refine ⟨hargs, ?_⟩
  rw [open_eq, hargs]
  rfl

/-- With two fields `open` comes back, and with an error, only for a speed that
`OpenComport` does not accept. -/
theorem right_iff_two {c : SerialComm} {device speed : Bytes}
    (htokens : tokens c.credentials = [device, speed]) (os : OpenOutcome) :
    Right c.credentials c os ↔ atoi speed ∉ SerialPort.baudrates := by
  obtain ⟨-, hopen⟩ := open_fields htokens os
  have hsome : (c.open_ os).isSome ↔ atoi speed ∉ SerialPort.baudrates := by
    rw [hopen, Option.isSome_map, openComport_isSome]
    simp
  refine ⟨fun h => hsome.mp h.returns, fun hspeed => ⟨hsome.mpr hspeed, ?_, ?_⟩⟩
  · intro device' speed' mode' htriple
    have hthree := tokens_triple htriple
    rw [htokens] at hthree
    simp at hthree
  · intro _ r hr
    unfold SerialPort.openComport at hopen
    rw [hopen, if_pos hspeed] at hr
    rw [← Option.some.inj hr]
    exact one_ne_zero

/-- With three fields and more there is a mode, and the first three are passed; the
speed as the number it is, if it is one that `atoi` gives. -/
theorem right_iff_three {c : SerialComm} {device speed mode : Bytes} {rest : List Bytes}
    (htokens : tokens c.credentials = device :: speed :: mode :: rest) (os : OpenOutcome) :
    Right c.credentials c os ↔ ∀ device speed mode, Triple c.credentials device speed mode →
      IsIntText speed := by
  obtain ⟨hargs, hopen⟩ := open_fields htokens os
  -- a string of just three fields is cut into them
  have hthree : ∀ device' speed' mode', Triple c.credentials device' speed' mode' →
      device = device' ∧ speed = speed' ∧ mode = mode' := by
    intro device' speed' mode' htriple
    have hcut := tokens_triple htriple
    rw [htokens] at hcut
    simp only [List.cons.injEq] at hcut
    exact ⟨hcut.1, hcut.2.1, hcut.2.2.1⟩
  constructor
  · intro hright device' speed' mode' htriple
    obtain ⟨v, hvalue, hpassed⟩ := hright.passes device' speed' mode' htriple
    obtain ⟨rfl, rfl, rfl⟩ := hthree device' speed' mode' htriple
    rw [hargs] at hpassed
    have hatoi : atoi speed = v := (Prod.mk.inj (Prod.mk.inj (Option.some.inj hpassed)).2).1
    exact ⟨v, hvalue, (atoi_eq_iff hvalue).mp hatoi⟩
  · intro hint
    refine ⟨?_, ?_, ?_⟩
    · rw [hopen, Option.isSome_map, openComport_isSome]
      exact .inr rfl
    · intro device' speed' mode' htriple
      obtain ⟨v, hvalue, hv⟩ := hint device' speed' mode' htriple
      obtain ⟨rfl, rfl, rfl⟩ := hthree device' speed' mode' htriple
      refine ⟨v, hvalue, ?_⟩
      rw [hargs, (atoi_eq_iff hvalue).mpr hv]
      rfl
    · intro hshort
      rw [htokens] at hshort
      simp only [List.length_cons] at hshort
      omega

/-- An `open` of the string as it was given. -/
theorem right_iff_openable (c : SerialComm) (os : OpenOutcome) :
    Right c.credentials c os ↔ Openable c.credentials := by
  have hfields := fields_tokens c.credentials
  unfold Openable
  match htokens : tokens c.credentials with
  | [] =>
    simp only [htokens] at hfields
    exact iff_of_false (not_right_of_fields hfields os) not_false
  | [device] =>
    simp only [htokens] at hfields
    exact iff_of_false (not_right_of_fields hfields os) not_false
  | [device, speed] => exact right_iff_two htokens os
  | device :: speed :: mode :: rest => exact right_iff_three htokens os

/-! ## All calls -/

/-- The number of `open`s among the calls. -/
def opens (calls : List Call) : Nat := calls.countP Call.isOpen

theorem opens_open (os : OpenOutcome) (calls : List Call) :
    opens (.open_ os :: calls) = opens calls + 1 := List.countP_cons_of_pos rfl

theorem opens_close (calls : List Call) : opens (.close :: calls) = opens calls :=
  List.countP_cons_of_neg Bool.false_ne_true

/-- A `close` owes nothing and leaves the string alone. -/
theorem meets_close {cred : Bytes} {l : Life} (hl : l.destroyed = false) (calls : List Call) :
    Meets step (RightStep cred) l ((Call.close :: calls).map Call.op) ↔
      Meets step (RightStep cred) { l with comm := l.comm.close } (calls.map Call.op) := by
  have hstep : step l .close = some { l with comm := l.comm.close } := by simp [step, hl]
  rw [List.map_cons, Call.op, Meets, hstep]
  simp [RightStep]

/-- After an `open` there can only be `close`s. -/
theorem meets_spent {cred : Bytes} {l : Life} (hl : l.destroyed = false)
    (hspent : fields l.comm.credentials = none) (calls : List Call) :
    Meets step (RightStep cred) l (calls.map Call.op) ↔ opens calls = 0 := by
  induction calls generalizing l with
  | nil => exact iff_of_true trivial rfl
  | cons call calls ih =>
    cases call with
    | open_ os =>
      rw [opens_open]
      exact iff_of_false (fun h => not_right_of_fields hspent os h.1) (Nat.succ_ne_zero _)
    | close =>
      rw [meets_close hl, opens_close]
      exact ih hl ((close_closed l.comm).2.1 ▸ hspent)

theorem meets_iff {cred : Bytes} {l : Life} (hl : l.destroyed = false)
    (hcred : l.comm.credentials = cred) (calls : List Call) :
    Meets step (RightStep cred) l (calls.map Call.op) ↔
      opens calls = 0 ∨ opens calls = 1 ∧ Openable cred := by
  induction calls generalizing l with
  | nil => exact iff_of_true trivial (.inl rfl)
  | cons call calls ih =>
    cases call with
    | open_ os =>
      have hright : Right cred l.comm os ↔ Openable cred :=
        hcred ▸ right_iff_openable l.comm os
      have hfirst : RightStep cred l (.open_ os) ↔ Openable cred := hright
      rw [List.map_cons, Call.op, Meets, hfirst, opens_open]
      constructor
      · intro ⟨hopenable, hrest⟩
        obtain ⟨⟨c, rv⟩, hopen⟩ := Option.isSome_iff_exists.mp (hright.mpr hopenable).returns
        have hcalls := hrest ⟨c, false, l.opens ++ [(rv, c.device.isOpen)]⟩
          (by simp [step, hl, hopen])
        rw [meets_spent rfl (open_spent hopen)] at hcalls
        exact .inr ⟨by omega, hopenable⟩
      · intro hcond
        rcases hcond with hzero | ⟨hone, hopenable⟩
        · omega
        · refine ⟨hopenable, fun t ht => ?_⟩
          simp only [step, hl, Bool.false_eq_true, if_false] at ht
          obtain ⟨⟨c, rv⟩, hopen, rfl⟩ := Option.map_eq_some_iff.mp ht
          rw [meets_spent rfl (open_spent hopen)]
          omega
    | close =>
      rw [meets_close hl, opens_close]
      exact ih hl ((close_closed l.comm).2.1.trans hcred)

/-- **The credentials serve for one `open`**, and that one must find a speed that is
an `int` and a mode, or a speed at which `OpenComport` turns back before it. -/
theorem right_iff (garbage : Int) (cred : CString) (l₀ : Life)
    (h₀ : Life.init garbage cred = some l₀) (calls : List Call) :
    Meets step (RightStep cred.bytes) l₀ (calls.map Call.op) ↔
      opens calls = 0 ∨ opens calls = 1 ∧ Openable cred.bytes := by
  obtain rfl := init_eq h₀
  exact meets_iff (l := ⟨⟨cred.bytes, ⟨garbage, []⟩⟩, false, []⟩) rfl rfl calls

theorem com_triple : Triple com.bytes [0x43] [0x39, 0x36, 0x30, 0x30] [0x38, 0x4e, 0x31] :=
  ⟨rfl, by decide, by decide, by decide⟩

/-- `C,9600`. -/
def comNoMode : CString := c_str [0x43, 0x2c, 0x39, 0x36, 0x30, 0x30]

/-- `C,4294976896,8N1`. -/
def comWide : CString :=
  c_str [0x43, 0x2c, 0x34, 0x32, 0x39, 0x34, 0x39, 0x37, 0x36, 0x38, 0x39, 0x36, 0x2c, 0x38, 0x4e,
    0x31]

theorem comWide_triple : Triple comWide.bytes [0x43]
    [0x34, 0x32, 0x39, 0x34, 0x39, 0x37, 0x36, 0x38, 0x39, 0x36] [0x38, 0x4e, 0x31] :=
  ⟨rfl, by decide, by decide, by decide⟩

/-- `C,9600,8N1` is opened, closed and opened again: the second `open` has a null
pointer for `atoi`. The first `open` of `C,9600` has one for `strlen`. The first
`open` of `C,4294976896,8N1` calls `OpenComport` with 9600. -/
theorem second_open_null :
    (∃ l₀, Life.init 0 com = some l₀ ∧ Triple com.bytes [0x43] [0x39, 0x36, 0x30, 0x30]
        [0x38, 0x4e, 0x31] ∧
      ¬ Meets step (RightStep com.bytes) l₀
        ([.open_ (granted 3), .close, .open_ (granted 3)].map Call.op)) ∧
    (∃ l₀, Life.init 0 comNoMode = some l₀ ∧
      ¬ Meets step (RightStep comNoMode.bytes) l₀ ([.open_ (granted 3)].map Call.op)) ∧
    ∃ l₀, Life.init 0 comWide = some l₀ ∧ Triple comWide.bytes [0x43]
        [0x34, 0x32, 0x39, 0x34, 0x39, 0x37, 0x36, 0x38, 0x39, 0x36] [0x38, 0x4e, 0x31] ∧
      openArgs l₀.comm = some ([0x43], 9600, some [0x38, 0x4e, 0x31]) ∧
      ¬ Meets step (RightStep comWide.bytes) l₀ ([.open_ (granted 3)].map Call.op) := by
  have hmeets : ∀ (cred : CString) (calls : List Call),
      Meets step (RightStep cred.bytes) ⟨⟨cred.bytes, ⟨0, []⟩⟩, false, []⟩ (calls.map Call.op) →
        opens calls = 0 ∨ opens calls = 1 ∧ Openable cred.bytes := fun cred calls =>
    (meets_iff (l := ⟨⟨cred.bytes, ⟨0, []⟩⟩, false, []⟩) rfl rfl calls).mp
  refine ⟨⟨_, rfl, com_triple, fun h => ?_⟩, ⟨_, rfl, fun h => ?_⟩, _, rfl, comWide_triple,
    by decide, fun h => ?_⟩
  · have htwice := hmeets com [.open_ (granted 3), .close, .open_ (granted 3)] h
    have htwo : opens [.open_ (granted 3), .close, .open_ (granted 3)] = 2 := rfl
    omega
  · have honce := hmeets comNoMode [.open_ (granted 3)] h
    have hspeed : atoi [0x39, 0x36, 0x30, 0x30] ∉ SerialPort.baudrates :=
      (honce.resolve_left one_ne_zero).2
    exact hspeed (by decide)
  · have honce := hmeets comWide [.open_ (granted 3)] h
    have hint : ∀ device speed mode, Triple comWide.bytes device speed mode → IsIntText speed :=
      (honce.resolve_left one_ne_zero).2
    obtain ⟨v, hvalue, hv⟩ := hint _ _ _ comWide_triple
    have hwide : decimalValue [0x34, 0x32, 0x39, 0x34, 0x39, 0x37, 0x36, 0x38, 0x39, 0x36] =
        some 4294976896 := by decide
    rw [hwide] at hvalue
    obtain rfl := Option.some.inj hvalue
    exact absurd hv.2 (by decide)

theorem right_iff_com : ∃ l₀, Life.init 0 com = some l₀ ∧
    (Meets step (RightStep com.bytes) l₀ ([.open_ (granted 3), .close].map Call.op) ↔
      opens [.open_ (granted 3), .close] = 0 ∨
        opens [.open_ (granted 3), .close] = 1 ∧ Openable com.bytes) :=
  ⟨_, rfl, right_iff 0 com _ rfl [.open_ (granted 3), .close]⟩

end Autocom.Credentials
