import Autocom.Bytes

/-! # `IoData`: the two buffers between the script and the IO thread

Every operation holds `_tmut` for its whole body, so each is one atomic step on
the pair of buffers. -/
namespace Autocom

structure IoData where
  in_ : Bytes
  out_ : Bytes
  deriving DecidableEq

namespace IoData

def empty : IoData := ⟨[], []⟩

def putOut (io : IoData) (s : Bytes) : IoData := { io with out_ := io.out_ ++ s }

def getOut (io : IoData) : Bytes × IoData :=
  if io.out_ ≠ [] then (io.out_, { io with out_ := [] }) else ([], io)

def putIn (io : IoData) (s : Bytes) : IoData := { io with in_ := io.in_ ++ s }

def getIn (io : IoData) : Bytes × IoData :=
  if io.in_ ≠ [] then (io.in_, { io with in_ := [] }) else ([], io)

/-- `!_out.length()`. -/
def outLen (io : IoData) : Nat := if io.out_.length = 0 then 1 else 0

def hasInput (io : IoData) : Bool := decide (io.in_ ≠ [])
def hasOutput (io : IoData) : Bool := decide (io.out_ ≠ [])

theorem hasInput_iff {io : IoData} : io.hasInput = true ↔ io.in_ ≠ [] := decide_eq_true_iff

theorem hasInput_eq_false {io : IoData} : io.hasInput = false ↔ io.in_ = [] := by
  simp [hasInput]

theorem hasOutput_iff {io : IoData} : io.hasOutput = true ↔ io.out_ ≠ [] := decide_eq_true_iff

theorem getIn_eq (io : IoData) : io.getIn = (io.in_, { io with in_ := [] }) := by
  unfold getIn
  split
  · rfl
  · next h =>
    obtain ⟨i, o⟩ := io
    obtain rfl : i = [] := not_not.mp h
    rfl

theorem getOut_eq (io : IoData) : io.getOut = (io.out_, { io with out_ := [] }) := by
  unfold getOut
  split
  · rfl
  · next h =>
    obtain ⟨i, o⟩ := io
    obtain rfl : o = [] := not_not.mp h
    rfl

@[simp] theorem putOut_in (io : IoData) (s : Bytes) : (io.putOut s).in_ = io.in_ := rfl
@[simp] theorem putOut_out (io : IoData) (s : Bytes) : (io.putOut s).out_ = io.out_ ++ s := rfl
@[simp] theorem putIn_in (io : IoData) (s : Bytes) : (io.putIn s).in_ = io.in_ ++ s := rfl
@[simp] theorem putIn_out (io : IoData) (s : Bytes) : (io.putIn s).out_ = io.out_ := rfl

end IoData

end Autocom
