import Autocom.Machine
import Autocom.SendBuf

/-! # What one Linux `SendBuf` puts on the wire

`sent` stays 0, so a write that follows a short one sends the start of the
buffer again. The bytes accepted are a prefix of the buffer exactly when every
chunk after the first repeats it by accident of the content. The return code
speaks of the byte count alone. -/
namespace Autocom.SendBuf
open Autocom

variable {τ : Type} {buf : Bytes} {left : Nat} {before : τ → Bool} {polls : List (Poll τ)}

theorem append_initial_iff {a b l : Bytes} :
    a ++ b <+: l ↔ l.take a.length = a ∧ b <+: l.drop a.length := by
  constructor
  · rintro ⟨t, rfl⟩
    rw [List.append_assoc, List.take_left, List.drop_left]
    exact ⟨rfl, List.prefix_append b t⟩
  · intro ⟨ha, t, ht⟩
    refine ⟨t, ?_⟩
    rw [List.append_assoc, ht]
    conv_rhs => rw [← List.take_append_drop a.length l, ha]

theorem initial_iff {a l : Bytes} : a <+: l ↔ l.take a.length = a := by
  rw [List.prefix_iff_eq_take]
  exact eq_comm

/-- Each chunk that a write accepts is what the buffer holds at that place. -/
def Repeats (buf : Bytes) (before : τ → Bool) (polls : List (Poll τ)) : Prop :=
  ∀ pre p, Reaches buf.length before polls pre p →
    (buf.drop (accepted pre)).take p.count = buf.take (min p.count (buf.length - accepted pre))

theorem linuxLoop_initial_iff {o : Nat} (h : o + left = buf.length) :
    (linuxLoop buf before left polls).wire <+: buf.drop o ↔
      ∀ pre p, Reaches left before polls pre p →
        (buf.drop (o + accepted pre)).take p.count =
          buf.take (min p.count (left - accepted pre)) := by
  induction polls generalizing left o with
  | nil => exact ⟨fun _ _ _ hreach => absurd hreach not_reaches_nil, fun _ => List.nil_prefix⟩
  | cons p rest ih =>
    rw [forall_reaches]
    have hturn := linuxLoop_turn before p rest (by omega : left ≤ buf.length)
    generalize linuxLoop buf before left (p :: rest) = s at hturn ⊢
    cases hturn with
    | fail hfail =>
      have hcount : p.count = 0 := by simp [Poll.count, hfail]
      simp [hfail, hcount]
    | again hok hleft hbefore =>
      have hlen : (buf.take p.count).length = p.count := by simp; omega
      have hnext :
          (linuxLoop buf before (left - p.count) rest).wire <+: buf.drop (o + p.count) ↔ _ :=
        ih (by omega)
      rw [append_initial_iff, hlen, List.drop_drop, hnext]
      simp only [hok, hleft, hbefore, ne_eq, not_false_eq_true, and_self, true_imp_iff,
        accepted_nil, accepted_cons, Nat.add_zero, Nat.sub_zero, min_eq_left hleft.le,
        Nat.add_assoc, Nat.sub_add_eq]
    | late hok hleft hbefore =>
      have hlen : (buf.take p.count).length = p.count := by simp; omega
      rw [initial_iff, hlen]
      simp [hok, hbefore, min_eq_left hleft.le]
    | done hok hleft =>
      have hlen : (buf.take left).length = left := by simp; omega
      have htake : (buf.drop o).take p.count = (buf.drop o).take left := by
        rw [List.take_of_length_le (by simp; omega), List.take_of_length_le (by simp; omega)]
      have hnot : ¬ p.count < left := by omega
      rw [initial_iff, hlen]
      simp [hnot, min_eq_right hleft, htake]

/-- What the return code says: 0 for all bytes, 1 with bytes left, -1 for a
failure, which an empty buffer can meet too. -/
theorem linuxLoop_rv {rv : Int} (h : left ≤ buf.length)
    (hrv : (linuxLoop buf before left polls).rv = some rv) :
    (rv = 0 ∧ (linuxLoop buf before left polls).wire.length = left) ∨
      (rv = 1 ∧ (linuxLoop buf before left polls).wire.length < left) ∨
      (rv = -1 ∧ ((linuxLoop buf before left polls).wire.length < left ∨ left = 0)) := by
  induction polls generalizing left with
  | nil => cases hrv
  | cons p rest ih =>
    have hturn := linuxLoop_turn before p rest h
    generalize linuxLoop buf before left (p :: rest) = s at hturn hrv ⊢
    cases hturn with
    | fail hfail =>
      cases hrv
      exact .inr (.inr ⟨rfl, by simp; omega⟩)
    | again hok hleft hbefore =>
      have hnext := ih (by omega) hrv
      simp only [List.length_append, List.length_take]
      omega
    | late hok hleft hbefore =>
      obtain rfl := Option.some.inj hrv
      have hn : left - p.count ≠ 0 := by omega
      exact .inr (.inl ⟨by simp [hn], by simp; omega⟩)
    | done hok hleft =>
      obtain rfl := Option.some.inj hrv
      exact .inl ⟨rfl, by simp; omega⟩

/-! ## The contract -/

/-- The call stopped on a hard error. -/
def StoppedOnError (size : Nat) (before : τ → Bool) (polls : List (Poll τ)) : Prop :=
  ∃ pre p, Reaches size before polls pre p ∧ p.outcome = .fail

/-- A prefix of the buffer is sent; a call that returns gives 0 exactly for all
of it and -1 exactly for a hard error. -/
structure Contract (buf : Bytes) (before : τ → Bool) (polls : List (Poll τ)) (s : Sent) :
    Prop where
  initial : s.wire <+: buf
  zero : ∀ rv, s.rv = some rv → (rv = 0 ↔ s.wire = buf)
  error : ∀ rv, s.rv = some rv → (rv = -1 ↔ StoppedOnError buf.length before polls)

theorem linuxSendBuf_initial_iff (to_ : BitVec 32) (start : BitVec 64)
    (polls : List (Poll (BitVec 64))) :
    (linuxSendBuf buf to_ start polls).wire <+: buf ↔
      Repeats buf (linuxBefore start to_) polls := by
  have hloop : (linuxLoop buf (linuxBefore start to_) buf.length polls).wire <+: buf.drop 0 ↔ _ :=
    linuxLoop_initial_iff (Nat.zero_add buf.length)
  simpa [linuxSendBuf, Repeats] using hloop

theorem linuxSendBuf_fail_iff (to_ : BitVec 32) (start : BitVec 64)
    (polls : List (Poll (BitVec 64))) :
    (linuxSendBuf buf to_ start polls).rv = some (-1) ↔
      StoppedOnError buf.length (linuxBefore start to_) polls := linuxLoop_fail_iff le_rfl

/-- Where the bytes sent are a prefix, 0 stands for all of them. -/
theorem zero_iff_of_initial {to_ : BitVec 32} {start : BitVec 64}
    {polls : List (Poll (BitVec 64))} {rv : Int}
    (hinitial : (linuxSendBuf buf to_ start polls).wire <+: buf)
    (hempty : buf = [] → ¬ StoppedOnError buf.length (linuxBefore start to_) polls)
    (hrv : (linuxSendBuf buf to_ start polls).rv = some rv) :
    rv = 0 ↔ (linuxSendBuf buf to_ start polls).wire = buf := by
  have hall : (linuxSendBuf buf to_ start polls).wire = buf ↔
      (linuxSendBuf buf to_ start polls).wire.length = buf.length :=
    ⟨congrArg List.length, hinitial.eq_of_length⟩
  rw [hall]
  rcases linuxLoop_rv le_rfl hrv with ⟨rfl, hlen⟩ | ⟨rfl, hlen⟩ | ⟨rfl, hlen⟩
  · exact iff_of_true rfl hlen
  · exact iff_of_false (by decide) (Nat.ne_of_lt hlen)
  · have hne : buf.length ≠ 0 := fun hzero =>
      hempty (List.length_eq_zero_iff.mp hzero) ((linuxSendBuf_fail_iff to_ start polls).mp hrv)
    exact iff_of_false (by decide) (Nat.ne_of_lt (hlen.resolve_right hne))

/-- **`SendBuf` keeps its contract exactly when every chunk it sends again is by
accident the one that is due**, and no write of an empty buffer fails. -/
theorem contract_iff (buf : Bytes) (to_ : BitVec 32) (start : BitVec 64)
    (polls : List (Poll (BitVec 64))) :
    Contract buf (linuxBefore start to_) polls (linuxSendBuf buf to_ start polls) ↔
      Repeats buf (linuxBefore start to_) polls ∧
        (buf = [] → ¬ StoppedOnError buf.length (linuxBefore start to_) polls) := by
  have hinitial : (linuxSendBuf buf to_ start polls).wire <+: buf ↔ _ :=
    linuxSendBuf_initial_iff to_ start polls
  have herror : (linuxSendBuf buf to_ start polls).rv = some (-1) ↔ _ :=
    linuxSendBuf_fail_iff to_ start polls
  constructor
  · intro hc
    refine ⟨hinitial.mp hc.initial, fun hnil hstop => ?_⟩
    -- an empty buffer is all on the wire, yet the call returns -1
    have hwire : (linuxSendBuf buf to_ start polls).wire = buf := by
      have hpre := hc.initial
      rw [hnil] at hpre ⊢
      exact List.prefix_nil.mp hpre
    have hzero := (hc.zero (-1) (herror.mpr hstop)).mpr hwire
    omega
  · intro ⟨hrepeats, hempty⟩
    have hpre := hinitial.mpr hrepeats
    refine ⟨hpre, fun rv hrv => zero_iff_of_initial hpre hempty hrv, fun rv hrv => ?_⟩
    rw [← herror, hrv]
    simp

/-- `ab` goes out as `a`, then `a` again, and the call returns 0. -/
theorem short_write_repeats :
    linuxSendBuf [0x61, 0x62] 64 0 [⟨.accept 1, 0⟩, ⟨.accept 1, 0⟩] = ⟨some 0, [0x61, 0x61]⟩ ∧
      ¬ Contract [0x61, 0x62] (linuxBefore 0 64) [⟨.accept 1, 0⟩, ⟨.accept 1, 0⟩]
        (linuxSendBuf [0x61, 0x62] 64 0 [⟨.accept 1, 0⟩, ⟨.accept 1, 0⟩]) :=
  ⟨by decide, fun hc => absurd hc.initial (by decide)⟩

/-! ## `sendTo` in the machine -/

/-- The machine takes a `sendTo` that keeps its contract as one write of what
went out and the result. -/
theorem sendTo_of_contract {regex : Expect.Regex} {d : Dev} {sc : Machine.ScriptPc}
    (hsc : sc ≠ .running .aborted) {to_ : BitVec 32} {start : BitVec 64}
    {polls : List (Poll (BitVec 64))} {rv : Int}
    (h : Contract buf (linuxBefore start to_) polls (linuxSendBuf buf to_ start polls))
    (hrv : (linuxSendBuf buf to_ start polls).rv = some rv) :
    ∃ t, Lib.Lts.run (Machine.step regex) ⟨d, sc, .sending buf buf⟩
        [.io (.wrote (linuxSendBuf buf to_ start polls).wire.length), .io (.sent rv)] = some t ∧
      t.dev.log.wire = d.log.wire ++ (linuxSendBuf buf to_ start polls).wire := by
  have hcases := linuxLoop_rv le_rfl hrv
  generalize hs : linuxSendBuf buf to_ start polls = s at h hrv hcases ⊢
  have htake : buf.take s.wire.length = s.wire := initial_iff.mp h.initial
  have hall : buf.drop s.wire.length = [] ↔ rv = 0 := by
    rw [h.zero rv hrv, List.drop_eq_nil_iff]
    exact ⟨fun hle => h.initial.eq_of_length_le hle, fun heq => by rw [heq]⟩
  have hwrote : Machine.step regex ⟨d, sc, .sending buf buf⟩ (.io (.wrote s.wire.length)) =
      some ⟨{ d with log := { d.log with wire := d.log.wire ++ s.wire } }, sc,
        .sending buf (buf.drop s.wire.length)⟩ := by
    rw [Machine.step, Machine.ioStep, Option.map_some, htake,
      Machine.settle_eq hsc (by intro heq; cases heq)]
  -- the second action is enabled for each of the three results
  have hsent : ∃ t, Machine.step regex
      ⟨{ d with log := { d.log with wire := d.log.wire ++ s.wire } }, sc,
        .sending buf (buf.drop s.wire.length)⟩ (.io (.sent rv)) = some t ∧
      t.dev.log.wire = d.log.wire ++ s.wire := by
    rcases hcases with ⟨rfl, -⟩ | ⟨rfl, -⟩ | ⟨rfl, -⟩
    · simp [Machine.step, Machine.ioStep, hall]
    · simp [Machine.step, Machine.ioStep, hall]
    · simp [Machine.step, Machine.ioStep, hall]
  obtain ⟨t, ht, hwire⟩ := hsent
  exact ⟨t, Lib.Lts.run_cons.mpr ⟨_, hwrote, Lib.Lts.run_cons.mpr ⟨t, ht, rfl⟩⟩, hwire⟩

end Autocom.SendBuf
