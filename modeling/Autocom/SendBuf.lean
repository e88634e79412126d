import Autocom.Bytes

/-! # `SerialPort::SendBuf` on both platforms

The two retry loops over what the operating system answers: one `Poll` is the
outcome of a write and the reading of the clock that the loop condition takes
after it. A call whose polls run out before it returns is still in its loop.
Neither version moves `sent` (`written`) on, so each write offers the bytes from
the start of the buffer again. -/
namespace Autocom.SendBuf
open Autocom

/-- A write of the bytes offered accepts `n` of them, or accepts nothing for now
(`EAGAIN`; on Windows a write of no bytes that succeeds), or fails. -/
inductive WriteOutcome
  | accept (n : Nat)
  | again
  | fail
  deriving DecidableEq

structure Poll (τ : Type) where
  outcome : WriteOutcome
  tick : τ
  deriving DecidableEq

/-- What the system has accepted, and what the call returned if it did. -/
structure Sent where
  rv : Option Int
  wire : Bytes
  deriving DecidableEq

variable {τ : Type}

/-- The bytes accepted of those offered; `none` is a failure. -/
def write (offered : Bytes) : WriteOutcome → Option Bytes
  | .accept n => some (offered.take n)
  | .again => some []
  | .fail => none

/-- The loop of the Linux version; `before` tests the clock against `ct`. -/
def linuxLoop (buf : Bytes) (before : τ → Bool) : Nat → List (Poll τ) → Sent
  | _, [] => ⟨none, []⟩
  | left, p :: rest =>
    let sent := 0
    match write ((buf.drop sent).take left) p.outcome with
    | none => ⟨some (-1), []⟩
    | some bytes =>
      let left := left - bytes.length
      if left > 0 ∧ before p.tick = true then
        let s := linuxLoop buf before left rest
        ⟨s.rv, bytes ++ s.wire⟩
      else ⟨some (if left = 0 then 0 else 1), bytes⟩

/-- The loop of the Windows version: a failed `WriteFile` leaves it, and what is
returned is the number of bytes left. -/
def windowsLoop (buf : Bytes) (before : τ → Bool) : Nat → List (Poll τ) → Sent
  | _, [] => ⟨none, []⟩
  | left, p :: rest =>
    let written := 0
    match write ((buf.drop written).take left) p.outcome with
    | none => ⟨some left, []⟩
    | some bytes =>
      let left := left - bytes.length
      if before p.tick = true ∧ left > 0 then
        let s := windowsLoop buf before left rest
        ⟨s.rv, bytes ++ s.wire⟩
      else ⟨some left, bytes⟩

/-- `::tick_count() < ct`, compared as `size_t`, for `ct = ::tick_count() + to`. -/
def linuxBefore (start : BitVec 64) (to_ : BitVec 32) (tick : BitVec 64) : Bool :=
  tick.ult (start + to_.signExtend 64)

/-- `GetTickCount() < ct` in `DWORD`s. -/
def windowsBefore (start to_ tick : BitVec 32) : Bool := tick.ult (start + to_)

def linuxSendBuf (buf : Bytes) (to_ : BitVec 32) (start : BitVec 64)
    (polls : List (Poll (BitVec 64))) : Sent :=
  linuxLoop buf (linuxBefore start to_) buf.length polls

def windowsSendBuf (buf : Bytes) (to_ : BitVec 32) (start : BitVec 32)
    (polls : List (Poll (BitVec 32))) : Sent :=
  windowsLoop buf (windowsBefore start to_) buf.length polls

/-! ## Which writes a call makes -/

def Poll.count (p : Poll τ) : Nat :=
  match p.outcome with
  | .accept n => n
  | _ => 0

/-- The bytes that the writes of these polls accept. -/
def accepted (polls : List (Poll τ)) : Nat := (polls.map Poll.count).sum

/-- No write of these polls failed, after each of them bytes were left and the
deadline had not passed. -/
def GoesOn (size : Nat) (before : τ → Bool) (pre : List (Poll τ)) : Prop :=
  ∀ init p, init ++ [p] <+: pre →
    p.outcome ≠ .fail ∧ accepted (init ++ [p]) < size ∧ before p.tick = true

/-- Of a buffer of `size` bytes, the call makes write `p` after the writes `pre`. -/
def Reaches (size : Nat) (before : τ → Bool) (polls pre : List (Poll τ)) (p : Poll τ) : Prop :=
  (∃ post, polls = pre ++ p :: post) ∧ GoesOn size before pre

section
variable {size left : Nat} {before : τ → Bool} {p q : Poll τ} {pre rest polls : List (Poll τ)}

@[simp] theorem accepted_nil : accepted ([] : List (Poll τ)) = 0 := rfl

@[simp] theorem accepted_cons : accepted (p :: rest) = p.count + accepted rest := by
  simp [accepted]

theorem goesOn_nil : GoesOn size before ([] : List (Poll τ)) := by
  intro init p h
  have hlen := h.length_le
  simp at hlen

theorem goesOn_cons : GoesOn size before (p :: pre) ↔
    (p.outcome ≠ .fail ∧ p.count < size ∧ before p.tick = true) ∧
      GoesOn (size - p.count) before pre := by
  constructor
  · intro h
    have hp := h [] p (by simp)
    refine ⟨by simpa using hp, fun init q hq => ?_⟩
    have hnext := h (p :: init) q (by simpa using hq)
    rw [List.cons_append, accepted_cons] at hnext
    exact ⟨hnext.1, by omega, hnext.2.2⟩
  · intro ⟨hp, hpre⟩ init q hq
    cases init with
    | nil =>
      have heq : q = p := by simpa using hq
      subst heq
      simpa using hp
    | cons r init =>
      obtain ⟨rfl, htail⟩ := List.cons_prefix_cons.mp hq
      have hnext := hpre init q htail
      rw [List.cons_append, accepted_cons]
      exact ⟨hnext.1, by omega, hnext.2.2⟩

theorem not_reaches_nil : ¬ Reaches size before [] pre p := by
  rintro ⟨⟨post, h⟩, -⟩
  simp at h

theorem reaches_first : Reaches size before (p :: rest) [] q ↔ q = p := by
  constructor
  · rintro ⟨⟨post, h⟩, -⟩
    exact (List.cons.inj h).1.symm
  · rintro rfl
    exact ⟨⟨rest, rfl⟩, goesOn_nil⟩

theorem reaches_next {r : Poll τ} : Reaches size before (p :: rest) (r :: pre) q ↔
    r = p ∧ (p.outcome ≠ .fail ∧ p.count < size ∧ before p.tick = true) ∧
      Reaches (size - p.count) before rest pre q := by
  constructor
  · intro ⟨⟨post, h⟩, hgo⟩
    obtain ⟨rfl, htail⟩ := List.cons.inj h
    obtain ⟨hp, hpre⟩ := goesOn_cons.mp hgo
    exact ⟨rfl, hp, ⟨post, htail⟩, hpre⟩
  · rintro ⟨rfl, hp, ⟨post, rfl⟩, hpre⟩
    exact ⟨⟨post, rfl⟩, goesOn_cons.mpr ⟨hp, hpre⟩⟩

/-- A property of the writes that are made, from the first one on. -/
theorem exists_reaches {Q : List (Poll τ) → Poll τ → Prop} :
    (∃ pre q, Reaches size before (p :: rest) pre q ∧ Q pre q) ↔
      Q [] p ∨ ((p.outcome ≠ .fail ∧ p.count < size ∧ before p.tick = true) ∧
        ∃ pre q, Reaches (size - p.count) before rest pre q ∧ Q (p :: pre) q) := by
  constructor
  · intro ⟨pre, q, hreach, hq⟩
    cases pre with
    | nil => obtain rfl := reaches_first.mp hreach; exact .inl hq
    | cons r pre =>
      obtain ⟨rfl, hp, hreach⟩ := reaches_next.mp hreach
      exact .inr ⟨hp, pre, q, hreach, hq⟩
  · rintro (hq | ⟨hp, pre, q, hreach, hq⟩)
    · exact ⟨[], p, reaches_first.mpr rfl, hq⟩
    · exact ⟨p :: pre, q, reaches_next.mpr ⟨rfl, hp, hreach⟩, hq⟩

theorem forall_reaches {Q : List (Poll τ) → Poll τ → Prop} :
    (∀ pre q, Reaches size before (p :: rest) pre q → Q pre q) ↔
      Q [] p ∧ ((p.outcome ≠ .fail ∧ p.count < size ∧ before p.tick = true) →
        ∀ pre q, Reaches (size - p.count) before rest pre q → Q (p :: pre) q) := by
  constructor
  · intro h
    exact ⟨h [] p (reaches_first.mpr rfl),
      fun hp pre q hreach => h (p :: pre) q (reaches_next.mpr ⟨rfl, hp, hreach⟩)⟩
  · intro ⟨hfirst, hnext⟩ pre q hreach
    cases pre with
    | nil => obtain rfl := reaches_first.mp hreach; exact hfirst
    | cons r pre =>
      obtain ⟨rfl, hp, hreach⟩ := reaches_next.mp hreach
      exact hnext hp pre q hreach

/-- The two shapes of a poll: its write fails or accepts `count` bytes at most. -/
theorem write_cases (offered : Bytes) (p : Poll τ) :
    (p.outcome = .fail ∧ write offered p.outcome = none) ∨
      (p.outcome ≠ .fail ∧ write offered p.outcome = some (offered.take p.count)) := by
  obtain ⟨outcome, tick⟩ := p
  cases outcome with
  | accept n => exact .inr ⟨nofun, rfl⟩
  | again => exact .inr ⟨nofun, rfl⟩
  | fail => exact .inl ⟨rfl, rfl⟩

/-- The clock's part in going on is a test of each reading. -/
theorem goesOn_iff : GoesOn size before pre ↔
    GoesOn size (fun _ => true) pre ∧ ∀ q ∈ pre, before q.tick = true := by
  induction pre generalizing size with
  | nil => exact ⟨fun _ => ⟨goesOn_nil, nofun⟩, fun _ => goesOn_nil⟩
  | cons p pre ih =>
    rw [goesOn_cons, goesOn_cons, ih, List.forall_mem_cons]
    tauto

/-- Only one write completes the buffer. -/
theorem reaches_completing_unique {before' : τ → Bool} {pre' : List (Poll τ)}
    (h : Reaches size before polls pre p) (hp : size ≤ accepted pre + p.count)
    (h' : Reaches size before' polls pre' q) (hq : size ≤ accepted pre' + q.count) :
    pre = pre' ∧ p = q := by
  induction polls generalizing size pre pre' with
  | nil => exact absurd h not_reaches_nil
  | cons r rest ih =>
    cases pre with
    | nil =>
      obtain rfl := reaches_first.mp h
      cases pre' with
      | nil => exact ⟨rfl, (reaches_first.mp h').symm⟩
      | cons r' pre' =>
        obtain ⟨rfl, hr, -⟩ := reaches_next.mp h'
        simp at hp
        omega
    | cons r₁ pre =>
      obtain ⟨rfl, hr, hrest⟩ := reaches_next.mp h
      cases pre' with
      | nil =>
        obtain rfl := reaches_first.mp h'
        simp at hq
        omega
      | cons r₂ pre' =>
        obtain ⟨rfl, -, hrest'⟩ := reaches_next.mp h'
        rw [accepted_cons] at hp hq
        obtain ⟨rfl, rfl⟩ := ih hrest (by omega) hrest' (by omega)
        exact ⟨rfl, rfl⟩

/-! ## One turn of either loop -/

/-- What a turn with `left` bytes left makes of poll `p`: `failed` is returned
on a failure, `stopped n` when the loop ends with `n` bytes left. -/
inductive Turn (failed : Int) (stopped : Nat → Int) (buf : Bytes) (before : τ → Bool)
    (left : Nat) (p : Poll τ) (next : Nat → Sent) : Sent → Prop
  | fail (hfail : p.outcome = .fail) :
    Turn failed stopped buf before left p next ⟨some failed, []⟩
  | again (hok : p.outcome ≠ .fail) (hleft : p.count < left) (hbefore : before p.tick = true) :
    Turn failed stopped buf before left p next
      ⟨(next (left - p.count)).rv, buf.take p.count ++ (next (left - p.count)).wire⟩
  | late (hok : p.outcome ≠ .fail) (hleft : p.count < left) (hbefore : before p.tick = false) :
    Turn failed stopped buf before left p next
      ⟨some (stopped (left - p.count)), buf.take p.count⟩
  | done (hok : p.outcome ≠ .fail) (hleft : left ≤ p.count) :
    Turn failed stopped buf before left p next ⟨some (stopped 0), buf.take left⟩

theorem length_offered {buf : Bytes} (n : Nat) (h : left ≤ buf.length) :
    (((buf.drop 0).take left).take n).length = min n left := by
  simp [List.length_take]
  omega

theorem take_offered {buf : Bytes} {n : Nat} (h : n ≤ left) :
    ((buf.drop 0).take left).take n = buf.take n := by
  rw [List.drop_zero, List.take_take, min_eq_left h]

/-- A turn of the loops, but for the order of their two tests. -/
def turn (failed : Int) (stopped : Nat → Int) (buf : Bytes) (before : τ → Bool) (left : Nat)
    (p : Poll τ) (next : Nat → Sent) : Sent :=
  match write ((buf.drop 0).take left) p.outcome with
  | none => ⟨some failed, []⟩
  | some bytes =>
    let left := left - bytes.length
    if left > 0 ∧ before p.tick = true then ⟨(next left).rv, bytes ++ (next left).wire⟩
    else ⟨some (stopped left), bytes⟩

theorem turn_turn (failed : Int) (stopped : Nat → Int) (before : τ → Bool) (p : Poll τ)
    (next : Nat → Sent) {buf : Bytes} (h : left ≤ buf.length) :
    Turn failed stopped buf before left p next (turn failed stopped buf before left p next) := by
  rcases write_cases ((buf.drop 0).take left) p with ⟨hfail, hwrite⟩ | ⟨hok, hwrite⟩
  · simp only [turn, hwrite]
    exact .fail hfail
  · simp only [turn, hwrite, length_offered _ h]
    by_cases hleft : p.count < left
    · rw [min_eq_left hleft.le, take_offered hleft.le]
      cases hbefore : before p.tick with
      | true => rw [if_pos ⟨by omega, rfl⟩]; exact .again hok hleft hbefore
      | false => rw [if_neg (by simp)]; exact .late hok hleft hbefore
    · have hleft : left ≤ p.count := by omega
      rw [min_eq_right hleft, Nat.sub_self, if_neg (by simp), List.drop_zero, List.take_take,
        min_eq_right hleft]
      exact .done hok hleft

theorem linuxLoop_turn (before : τ → Bool) (p : Poll τ) (rest : List (Poll τ)) {buf : Bytes}
    (h : left ≤ buf.length) :
    Turn (-1) (fun n => if n = 0 then 0 else 1) buf before left p
      (fun n => linuxLoop buf before n rest) (linuxLoop buf before left (p :: rest)) :=
  turn_turn (-1) (fun n => if n = 0 then 0 else 1) before p _ h

theorem windowsLoop_turn (before : τ → Bool) (p : Poll τ) (rest : List (Poll τ)) {buf : Bytes}
    (h : left ≤ buf.length) :
    Turn left (fun n => n) buf before left p
      (fun n => windowsLoop buf before n rest) (windowsLoop buf before left (p :: rest)) := by
  have hturn := turn_turn left (fun n => n) before p (fun n => windowsLoop buf before n rest) h
  simp only [turn, and_comm] at hturn
  exact hturn

/-! ## The verdicts -/

/-- The write that is made completes the buffer. -/
def Completes (size : Nat) (pre : List (Poll τ)) (p : Poll τ) : Prop :=
  p.outcome ≠ .fail ∧ size ≤ accepted pre + p.count

theorem completes_next : Completes left (p :: pre) q ↔ Completes (left - p.count) pre q := by
  simp only [Completes, accepted_cons]
  exact and_congr_right fun _ => by omega

/-- A call that has written `pre` returns `rv` after write `p`. -/
def Ends (failed stopped : Nat → Int) (size : Nat) (before : τ → Bool) (pre : List (Poll τ))
    (p : Poll τ) (rv : Int) : Prop :=
  (p.outcome = .fail ∧ failed (size - accepted pre) = rv) ∨
    ((p.outcome ≠ .fail ∧ accepted pre + p.count < size) ∧ before p.tick = false ∧
      stopped (size - (accepted pre + p.count)) = rv) ∨
    (Completes size pre p ∧ stopped 0 = rv)

theorem ends_next {failed stopped : Nat → Int} {rv : Int} :
    Ends failed stopped left before (p :: pre) q rv ↔
      Ends failed stopped (left - p.count) before pre q rv := by
  unfold Ends
  rw [completes_next, accepted_cons, Nat.add_assoc, Nat.sub_add_eq, Nat.sub_add_eq left p.count,
    show p.count + (accepted pre + q.count) < left ↔ accepted pre + q.count < left - p.count by
      omega]

/-- A loop that takes one turn after the other. -/
structure Loops (failed stopped : Nat → Int) (buf : Bytes) (before : τ → Bool)
    (loop : Nat → List (Poll τ) → Sent) : Prop where
  nil : ∀ n, (loop n []).rv = none
  turn : ∀ n p rest, n ≤ buf.length →
    Turn (failed n) stopped buf before n p (fun m => loop m rest) (loop n (p :: rest))

/-- **What a loop returns** is decided by one of the writes that it makes. -/
theorem Loops.rv_iff {failed stopped : Nat → Int} {buf : Bytes}
    {loop : Nat → List (Poll τ) → Sent} (hloop : Loops failed stopped buf before loop)
    (h : left ≤ buf.length) {rv : Int} :
    (loop left polls).rv = some rv ↔
      ∃ pre p, Reaches left before polls pre p ∧ Ends failed stopped left before pre p rv := by
  induction polls generalizing left with
  | nil =>
    rw [hloop.nil]
    refine ⟨nofun, ?_⟩
    rintro ⟨pre, p, hreach, -⟩
    exact absurd hreach not_reaches_nil
  | cons p rest ih =>
    rw [exists_reaches]
    have hturn := hloop.turn left p rest h
    generalize loop left (p :: rest) = s at hturn ⊢
    cases hturn with
    | fail hfail => simp [Ends, Completes, hfail]
    | again hok hleft hbefore =>
      have hgoes : ¬ Ends failed stopped left before [] p rv := by
        simp [Ends, Completes, hok, hbefore]
        omega
      simp only [hgoes, false_or, hok, hleft, hbefore, ne_eq, not_false_eq_true, and_self,
        true_and, ih (by omega : left - p.count ≤ _), ends_next]
    | late hok hleft hbefore =>
      have hnot : ¬ left ≤ p.count := by omega
      simp [Ends, Completes, hok, hleft, hbefore, hnot]
    | done hok hleft =>
      have hnot : ¬ p.count < left := by omega
      simp [Ends, Completes, hok, hleft, hnot]

theorem linuxLoop_loops (buf : Bytes) (before : τ → Bool) :
    Loops (fun _ => -1) (fun n => if n = 0 then 0 else 1) buf before (linuxLoop buf before) :=
  ⟨fun _ => rfl, fun _ p rest h => linuxLoop_turn before p rest h⟩

theorem windowsLoop_loops (buf : Bytes) (before : τ → Bool) :
    Loops (fun n => n) (fun n => n) buf before (windowsLoop buf before) :=
  ⟨fun _ => rfl, fun _ p rest h => windowsLoop_turn before p rest h⟩

/-- Linux returns -1 exactly when a write that it makes fails. -/
theorem linuxLoop_fail_iff {buf : Bytes} (h : left ≤ buf.length) :
    (linuxLoop buf before left polls).rv = some (-1) ↔
      ∃ pre p, Reaches left before polls pre p ∧ p.outcome = .fail := by
  rw [(linuxLoop_loops buf before).rv_iff h]
  refine exists_congr fun pre => exists_congr fun p => and_congr_right fun _ => ?_
  unfold Ends
  constructor
  · rintro (⟨hfail, -⟩ | ⟨-, -, hrv⟩ | ⟨-, hrv⟩)
    · exact hfail
    · dsimp only at hrv
      split at hrv <;> cases hrv
    · cases hrv
  · exact fun hfail => .inl ⟨hfail, rfl⟩

/-- Linux returns 0 exactly when it makes the write that completes the buffer. -/
theorem linuxLoop_zero_iff {buf : Bytes} (h : left ≤ buf.length) :
    (linuxLoop buf before left polls).rv = some 0 ↔
      ∃ pre p, Reaches left before polls pre p ∧ Completes left pre p := by
  rw [(linuxLoop_loops buf before).rv_iff h]
  refine exists_congr fun pre => exists_congr fun p => and_congr_right fun _ => ?_
  unfold Ends
  constructor
  · rintro (⟨-, hrv⟩ | ⟨⟨-, hlt⟩, -, hrv⟩ | ⟨hc, -⟩)
    · cases hrv
    · dsimp only at hrv
      rw [if_neg (by omega)] at hrv
      cases hrv
    · exact hc
  · exact fun hc => .inr (.inr ⟨hc, rfl⟩)

/-- Only an empty buffer has nothing left before a write. -/
theorem Reaches.left_eq_zero_iff (h : Reaches left before polls pre p) :
    left - accepted pre = 0 ↔ left = 0 := by
  rcases List.eq_nil_or_concat pre with rfl | ⟨init, r, rfl⟩
  · simp
  · have hlt := (h.2 init r (by simp)).2.1
    rw [List.concat_eq_append]
    omega

/-- Windows returns 0 exactly when it makes the write that completes the buffer,
or fails to write an empty one. -/
theorem windowsLoop_zero_iff {buf : Bytes} (h : left ≤ buf.length) :
    (windowsLoop buf before left polls).rv = some 0 ↔
      ∃ pre p, Reaches left before polls pre p ∧
        (Completes left pre p ∨ left = 0 ∧ p.outcome = .fail) := by
  rw [(windowsLoop_loops buf before).rv_iff h]
  refine exists_congr fun pre => exists_congr fun p => and_congr_right fun hreach => ?_
  rw [Ends, Int.natCast_eq_zero, hreach.left_eq_zero_iff]
  constructor
  · rintro (⟨hfail, hzero⟩ | ⟨⟨-, hlt⟩, -, hrv⟩ | ⟨hc, -⟩)
    · exact .inr ⟨hzero, hfail⟩
    · omega
    · exact .inl hc
  · rintro (hc | ⟨hzero, hfail⟩)
    · exact .inr (.inr ⟨hc, rfl⟩)
    · exact .inl ⟨hfail, hzero⟩

/-- Windows never returns a negative number. -/
theorem windowsLoop_nonneg {buf : Bytes} (h : left ≤ buf.length) :
    (windowsLoop buf before left polls).rv ≠ some (-1) := by
  rw [ne_eq, (windowsLoop_loops buf before).rv_iff h]
  have hcount : ∀ n : Nat, ¬ (n : Int) = -1 := by omega
  rintro ⟨pre, p, -, ⟨-, hrv⟩ | ⟨-, -, hrv⟩ | ⟨-, hrv⟩⟩
  · exact hcount _ hrv
  · exact hcount _ hrv
  · exact hcount _ hrv

end

end Autocom.SendBuf
