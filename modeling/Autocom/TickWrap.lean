import Autocom.Device
import Autocom.SendBuf

/-! # Deadlines on Windows, where the tick counter wraps

`GetTickCount` counts milliseconds in a `DWORD` and starts again at 0 after 49.7
days. A wait computes its deadline once and compares the counter with it:
`SendBuf` in `DWORD`s, `strwaitt` and `any` in `size_t`s, which are as wide as
the counter in a 32-bit build and twice as wide in a 64-bit one. -/
namespace Autocom.TickWrap
open Autocom
open Autocom.Expect (Regex Turn)

abbrev DWORD := BitVec 32

/-- The counter `d` milliseconds after it stood at `t0`. -/
def GetTickCount (t0 : DWORD) (d : Nat) : DWORD := t0 + BitVec.ofNat 32 d

inductive Build
  | win32
  | win64
  deriving DecidableEq

/-- The width of `size_t`. -/
def Build.size_t : Build → Nat
  | .win32 => 32
  | .win64 => 64

def tick_count (b : Build) (t0 : DWORD) (d : Nat) : BitVec b.size_t :=
  (GetTickCount t0 d).setWidth b.size_t

/-- `GetTickCount() < ct` after `ct = GetTickCount() + to`. -/
def sendBufBefore (t0 to_ : DWORD) (d : Nat) : Bool :=
  SendBuf.windowsBefore (GetTickCount t0 0) to_ (GetTickCount t0 d)

/-- `::tick_count() < expire` after `expire = ::tick_count() + to`. The sum is a
`size_t`; as a `time_t` it is compared as a `size_t` again. -/
def waitBefore (b : Build) (t0 to_ : DWORD) (d : Nat) : Bool :=
  (tick_count b t0 d).ult (tick_count b t0 0 + to_.signExtend b.size_t)

def strwaittBefore : Build → DWORD → DWORD → Nat → Bool := waitBefore
def anyBefore : Build → DWORD → DWORD → Nat → Bool := waitBefore

/-! ## In natural numbers -/

section
variable {t0 to_ : DWORD} {d : Nat}

theorem GetTickCount_toNat (t0 : DWORD) (d : Nat) :
    (GetTickCount t0 d).toNat = (t0.toNat + d) % 2 ^ 32 := by
  simp [GetTickCount, BitVec.toNat_add]

theorem sendBufBefore_iff (t0 to_ : DWORD) (d : Nat) : sendBufBefore t0 to_ d = true ↔
    (t0.toNat + d) % 2 ^ 32 < (t0.toNat + to_.toNat) % 2 ^ 32 := by
  unfold sendBufBefore SendBuf.windowsBefore
  rw [BitVec.ult_eq_decide, decide_eq_true_eq, BitVec.toNat_add, GetTickCount_toNat,
    GetTickCount_toNat, Nat.add_zero, Nat.mod_add_mod]

/-- A 32-bit build compares like `SendBuf`. -/
theorem waitBefore_win32 (t0 to_ : DWORD) (d : Nat) :
    waitBefore .win32 t0 to_ d = sendBufBefore t0 to_ d := by
  unfold waitBefore sendBufBefore SendBuf.windowsBefore tick_count Build.size_t
  simp

theorem waitBefore_win64_iff (hto : to_.toNat < 2 ^ 31) : waitBefore .win64 t0 to_ d = true ↔
    (t0.toNat + d) % 2 ^ 32 < t0.toNat + to_.toNat := by
  have hstart : (tick_count .win64 t0 0).toNat = t0.toNat := by
    simp only [tick_count, Build.size_t, BitVec.toNat_setWidth, GetTickCount_toNat]
    omega
  have htick : (tick_count .win64 t0 d).toNat = (t0.toNat + d) % 2 ^ 32 := by
    simp only [tick_count, Build.size_t, BitVec.toNat_setWidth, GetTickCount_toNat]
    omega
  have hto64 : (to_.signExtend 64).toNat = to_.toNat := by
    rw [BitVec.signExtend_eq_setWidth_of_msb_false
      (BitVec.msb_eq_false_iff_two_mul_lt.mpr (by omega)), BitVec.toNat_setWidth]
    omega
  unfold waitBefore
  rw [BitVec.ult_eq_decide, decide_eq_true_eq, BitVec.toNat_add, hstart, htick]
  have hsum : (t0.toNat + (to_.signExtend 64).toNat) % 2 ^ 64 = t0.toNat + to_.toNat := by
    rw [hto64]; omega
  exact iff_of_eq (congrArg _ hsum)

/-- `SendBuf` is right exactly when the elapsed time and the timeout both reach
past the wrap or neither does. -/
theorem sendBufBefore_right_iff (hto : to_.toNat < 2 ^ 31) (hd : d < 2 ^ 32) :
    (sendBufBefore t0 to_ d = true ↔ d < to_.toNat) ↔
      (t0.toNat + d < 2 ^ 32 ↔ t0.toNat + to_.toNat < 2 ^ 32) := by
  rw [sendBufBefore_iff]
  omega

/-- A 64-bit wait is right before the wrap, and past it as long as the timeout
has not been reached: then it never is. -/
theorem waitBefore_win64_right_iff (hto : to_.toNat < 2 ^ 31) (hd : d < 2 ^ 32) :
    (waitBefore .win64 t0 to_ d = true ↔ d < to_.toNat) ↔
      (t0.toNat + d < 2 ^ 32 ∨ d < to_.toNat) := by
  rw [waitBefore_win64_iff hto]
  omega

end

/-! ## The tests are those of the loops -/

/-- The ticks that the loops of a `Device` read in a 64-bit build. -/
def ticks (t0 : DWORD) (d : Nat) : Int := (tick_count .win64 t0 d).toNat

theorem ticks_lt_deadline_iff {t0 to_ : DWORD} (d : Nat) (hto : to_.toNat < 2 ^ 31) :
    ticks t0 d < (deadline (ticks t0 0) to_.toInt).1 ↔ waitBefore .win64 t0 to_ d = true := by
  have hint : to_.toInt = to_.toNat := BitVec.toInt_eq_toNat_of_lt (by omega)
  have hticks : ∀ d, ticks t0 d = ((t0.toNat + d) % 2 ^ 32 : Nat) := by
    intro d
    simp only [ticks, tick_count, Build.size_t, BitVec.toNat_setWidth, GetTickCount_toNat]
    omega
  have hfixed : (deadline (ticks t0 0) to_.toInt).1 = t0.toNat + to_.toNat := by
    unfold deadline
    rw [if_neg (by omega), hticks, hint]
    omega
  rw [waitBefore_win64_iff hto, hfixed, hticks]
  omega

/-- The loop test of `strwaitt`, with `__alive` true and no waiting hook. -/
theorem strwaitt_go {t0 to_ : DWORD} (d : Nat) (hto : to_.toNat < 2 ^ 31) (tick' : Int) :
    (Turn.mk (ticks t0 d) 0 tick').go true (deadline (ticks t0 0) to_.toInt).1 =
      strwaittBefore .win64 t0 to_ d := by
  rw [Bool.eq_iff_iff, strwaittBefore, ← ticks_lt_deadline_iff d hto]
  simp [Turn.go]

/-- The loop of `any`, with nothing received, takes another turn. -/
theorem any_goes_on {regex : Regex} {dev : Dev} {t0 to_ : DWORD} {d : Nat} {k : Tail}
    (hto : to_.toNat < 2 ^ 31) (hook tick' : Int) (hin : dev.io.hasInput = false)
    (halive : dev.progAlive = true) (h : anyBefore .win64 t0 to_ d = true) :
    turnCall regex dev ⟨ticks t0 d, hook, tick'⟩
        (.any (deadline (ticks t0 0) to_.toInt).1 false k) =
      some (dev, .any (deadline (ticks t0 0) to_.toInt).1 false k) := by
  have htest := (ticks_lt_deadline_iff d hto).mpr h
  simp [turnCall, htest, hin, halive]

/-! ## When a deadline holds -/

/-- **When deadlines survive the wrap.** For each of the three loops, the
condition under which its time test is true at elapsed time `d` exactly when `d`
is less than the timeout. -/
theorem deadlines_right_iff (t0 to_ : DWORD) (d : Nat) (hto : to_.toNat < 2 ^ 31)
    (hd : d < 2 ^ 32) :
    ((sendBufBefore t0 to_ d = true ↔ d < to_.toNat) ↔
      (t0.toNat + d < 2 ^ 32 ↔ t0.toNat + to_.toNat < 2 ^ 32)) ∧
    (∀ before ∈ [strwaittBefore, anyBefore],
      ((before .win64 t0 to_ d = true ↔ d < to_.toNat) ↔
        (t0.toNat + d < 2 ^ 32 ∨ d < to_.toNat)) ∧
      ((before .win32 t0 to_ d = true ↔ d < to_.toNat) ↔
        (t0.toNat + d < 2 ^ 32 ↔ t0.toNat + to_.toNat < 2 ^ 32))) := by
  refine ⟨sendBufBefore_right_iff hto hd, fun before hmem => ?_⟩
  have hbefore : before = waitBefore := by
    simpa [strwaittBefore, anyBefore] using hmem
  rw [hbefore, waitBefore_win32]
  exact ⟨waitBefore_win64_right_iff hto hd, sendBufBefore_right_iff hto hd⟩

/-- 256 ms before the wrap, a timeout of 2 seconds: `SendBuf` gives up after its
first sleep, of 64 ms, and a 64-bit wait is not over after a minute. -/
theorem wrap_breaks_deadlines :
    ¬ (sendBufBefore 0xFFFFFF00 2000 64 = true ↔ 64 < 2000) ∧
    ¬ (strwaittBefore .win64 0xFFFFFF00 2000 60000 = true ↔ 60000 < 2000) := by
  decide

/-- 44 ms past the wrap every test is right. -/
theorem deadlines_right_iff_wrap :
    ((sendBufBefore 0xFFFFFF00 2000 300 = true ↔ 300 < (2000 : DWORD).toNat) ↔
      ((0xFFFFFF00 : DWORD).toNat + 300 < 2 ^ 32 ↔
        (0xFFFFFF00 : DWORD).toNat + (2000 : DWORD).toNat < 2 ^ 32)) ∧
    (∀ before ∈ [strwaittBefore, anyBefore],
      ((before .win64 0xFFFFFF00 2000 300 = true ↔ 300 < (2000 : DWORD).toNat) ↔
        ((0xFFFFFF00 : DWORD).toNat + 300 < 2 ^ 32 ∨ 300 < (2000 : DWORD).toNat)) ∧
      ((before .win32 0xFFFFFF00 2000 300 = true ↔ 300 < (2000 : DWORD).toNat) ↔
        ((0xFFFFFF00 : DWORD).toNat + 300 < 2 ^ 32 ↔
          (0xFFFFFF00 : DWORD).toNat + (2000 : DWORD).toNat < 2 ^ 32))) :=
  deadlines_right_iff 0xFFFFFF00 2000 300 (by decide) (by decide)

end Autocom.TickWrap
