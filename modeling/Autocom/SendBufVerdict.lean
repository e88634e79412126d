import Autocom.SendBuf

/-! # The verdicts of the two `SendBuf`s

`thread_main` gives up on -1 only. The Linux version returns it for a failed
write, the Windows version returns the number of bytes left. The two clocks show
the same milliseconds since the call began, one in 64 bits and one in a `DWORD`. -/
namespace Autocom.SendBuf
open Autocom

/-- The reading of a clock that stood at `start`, some milliseconds later. -/
def linuxReading (start : BitVec 64) (elapsed : Int) : BitVec 64 := start + BitVec.ofInt 64 elapsed

def windowsReading (start : BitVec 32) (elapsed : Int) : BitVec 32 :=
  start + BitVec.ofInt 32 elapsed

def Poll.read {τ : Type} (reading : Int → τ) (p : Poll Int) : Poll τ := ⟨p.outcome, reading p.tick⟩

/-- -1 on one platform is -1 on the other, and 0 is 0. -/
def SameVerdict (linux windows : Sent) : Prop :=
  (linux.rv = some (-1) ↔ windows.rv = some (-1)) ∧ (linux.rv = some 0 ↔ windows.rv = some 0)

/-- The clock test of either platform, on the milliseconds elapsed. -/
def linuxInTime (start : BitVec 64) (to_ : BitVec 32) (elapsed : Int) : Bool :=
  linuxBefore start to_ (linuxReading start elapsed)

def windowsInTime (start to_ : BitVec 32) (elapsed : Int) : Bool :=
  windowsBefore start to_ (windowsReading start elapsed)

section
variable {τ : Type} {reading : Int → τ} {before : τ → Bool} {buf : Bytes} {left : Nat}
  {polls : List (Poll Int)}

theorem linuxLoop_read : linuxLoop buf before left (polls.map (Poll.read reading)) =
    linuxLoop buf (fun e => before (reading e)) left polls := by
  induction polls generalizing left with
  | nil => rfl
  | cons p rest ih => simp only [List.map_cons, linuxLoop, Poll.read, ih]

theorem windowsLoop_read : windowsLoop buf before left (polls.map (Poll.read reading)) =
    windowsLoop buf (fun e => before (reading e)) left polls := by
  induction polls generalizing left with
  | nil => rfl
  | cons p rest ih => simp only [List.map_cons, windowsLoop, Poll.read, ih]

end

/-- Both platforms come to the write that completes the buffer, or both have
stopped for the clock before it. -/
def SameDeadline (size : Nat) (inTime inTime' : Int → Bool) (polls : List (Poll Int)) : Prop :=
  ∀ pre p, Reaches size (fun _ => true) polls pre p → Completes size pre p →
    ((∀ q ∈ pre, inTime q.tick = true) ↔ ∀ q ∈ pre, inTime' q.tick = true)

section
variable {size : Nat} {inTime inTime' : Int → Bool} {polls pre : List (Poll Int)} {p : Poll Int}

theorem reaches_inTime_iff : Reaches size inTime polls pre p ↔
    Reaches size (fun _ => true) polls pre p ∧ ∀ q ∈ pre, inTime q.tick = true := by
  unfold Reaches
  rw [goesOn_iff]
  tauto

/-- The write that completes the buffer, or the only write of an empty one,
which fails. -/
def WindowsZero (size : Nat) (inTime : Int → Bool) (polls : List (Poll Int)) : Prop :=
  ∃ pre p, Reaches size inTime polls pre p ∧
    (Completes size pre p ∨ size = 0 ∧ p.outcome = .fail)

def LinuxZero (size : Nat) (inTime : Int → Bool) (polls : List (Poll Int)) : Prop :=
  ∃ pre p, Reaches size inTime polls pre p ∧ Completes size pre p

theorem sameDeadline_of_zero_iff
    (h : LinuxZero size inTime polls ↔ WindowsZero size inTime' polls) :
    SameDeadline size inTime inTime' polls := by
  intro pre p hr hc
  constructor
  · intro hin
    obtain ⟨pre', p', hr', hc'⟩ := h.mp ⟨pre, p, reaches_inTime_iff.mpr ⟨hr, hin⟩, hc⟩
    have hle : size ≤ accepted pre' + p'.count := by
      rcases hc' with hc' | ⟨hz, -⟩
      · exact hc'.2
      · omega
    obtain ⟨rfl, rfl⟩ := reaches_completing_unique hr hc.2 hr' hle
    exact (reaches_inTime_iff.mp hr').2
  · intro hin
    obtain ⟨pre', p', hr', hc'⟩ := h.mpr ⟨pre, p, reaches_inTime_iff.mpr ⟨hr, hin⟩, .inl hc⟩
    obtain ⟨rfl, rfl⟩ := reaches_completing_unique hr hc.2 hr' hc'.2
    exact (reaches_inTime_iff.mp hr').2

theorem zero_iff_of_sameDeadline
    (hnever : ∀ pre p, Reaches size inTime polls pre p → p.outcome ≠ .fail)
    (hsame : SameDeadline size inTime inTime' polls) :
    LinuxZero size inTime polls ↔ WindowsZero size inTime' polls := by
  constructor
  · intro ⟨pre, p, hr, hc⟩
    obtain ⟨hfree, hin⟩ := reaches_inTime_iff.mp hr
    have hin' := (hsame pre p hfree hc).mp hin
    exact ⟨pre, p, reaches_inTime_iff.mpr ⟨hfree, hin'⟩, .inl hc⟩
  · intro ⟨pre, p, hr, hc⟩
    obtain ⟨hfree, hin⟩ := reaches_inTime_iff.mp hr
    rcases hc with hc | ⟨hz, hf⟩
    · have hin' := (hsame pre p hfree hc).mpr hin
      exact ⟨pre, p, reaches_inTime_iff.mpr ⟨hfree, hin'⟩, hc⟩
    · -- an empty buffer has one write only, which Linux makes too
      cases pre with
      | nil =>
        have hlinux : Reaches size inTime polls [] p := reaches_inTime_iff.mpr ⟨hfree, nofun⟩
        exact absurd hf (hnever [] p hlinux)
      | cons r pre =>
        have hlt := (hr.2 [] r (by simp)).2.1
        omega

end

/-- **The two versions agree exactly when no write that Linux makes fails** and
the two deadlines cut the call off alike. -/
theorem same_verdict_iff (buf : Bytes) (to_ : BitVec 32) (start : BitVec 64)
    (start' : BitVec 32) (polls : List (Poll Int)) :
    SameVerdict (linuxSendBuf buf to_ start (polls.map (Poll.read (linuxReading start))))
        (windowsSendBuf buf to_ start' (polls.map (Poll.read (windowsReading start')))) ↔
      (∀ pre p, Reaches buf.length (linuxInTime start to_) polls pre p → p.outcome ≠ .fail) ∧
        SameDeadline buf.length (linuxInTime start to_) (windowsInTime start' to_) polls := by
  have hl : linuxSendBuf buf to_ start (polls.map (Poll.read (linuxReading start))) =
      linuxLoop buf (linuxInTime start to_) buf.length polls := linuxLoop_read
  have hw : windowsSendBuf buf to_ start' (polls.map (Poll.read (windowsReading start'))) =
      windowsLoop buf (windowsInTime start' to_) buf.length polls := windowsLoop_read
  rw [hl, hw, SameVerdict, linuxLoop_fail_iff le_rfl, linuxLoop_zero_iff le_rfl,
    windowsLoop_zero_iff le_rfl]
  constructor
  · intro ⟨hfail, hzero⟩
    refine ⟨fun pre p hr hf => ?_, sameDeadline_of_zero_iff hzero⟩
    exact windowsLoop_nonneg le_rfl (hfail.mp ⟨pre, p, hr, hf⟩)
  · intro ⟨hnever, hsame⟩
    refine ⟨⟨?_, fun hrv => absurd hrv (windowsLoop_nonneg le_rfl)⟩,
      zero_iff_of_sameDeadline hnever hsame⟩
    intro ⟨pre, p, hr, hf⟩
    exact absurd hf (hnever pre p hr)

/-- One byte, and a line that is gone: Linux returns -1, Windows 1. -/
theorem failure_seen_on_linux_only :
    linuxSendBuf [0x61] 64 0 [Poll.read (linuxReading 0) ⟨.fail, 0⟩] = ⟨some (-1), []⟩ ∧
      windowsSendBuf [0x61] 64 0 [Poll.read (windowsReading 0) ⟨.fail, 0⟩] = ⟨some 1, []⟩ ∧
      ¬ SameVerdict (linuxSendBuf [0x61] 64 0 [Poll.read (linuxReading 0) ⟨.fail, 0⟩])
        (windowsSendBuf [0x61] 64 0 [Poll.read (windowsReading 0) ⟨.fail, 0⟩]) :=
  ⟨by decide, by decide, fun h => absurd (h.1.mp (by decide)) (by decide)⟩

end Autocom.SendBuf
