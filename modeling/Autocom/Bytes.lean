import Mathlib.Data.BitVec
import Mathlib.Data.List.TakeWhile

/-! # Bytes and C strings

`uint8_t` is `Byte`, a `bstring` or the content of a `std::string` is a list of
bytes. A `const char*` argument is a `CString`: its bytes up to the terminator,
so no zero byte is among them. -/
namespace Autocom

abbrev Byte := BitVec 8

abbrev Bytes := List Byte

/-- What a `const char*` points at. -/
structure CString where
  bytes : Bytes
  noNul : 0 ∉ bytes
  deriving DecidableEq

/-- Reading a buffer as a C string, as `append((const char*)buf.data())` does:
the bytes before the first zero byte. -/
def cstr (buf : Bytes) : Bytes := buf.takeWhile (· != 0)

theorem cstr_eq_self {buf : Bytes} (h : 0 ∉ buf) : cstr buf = buf := by
  rw [cstr, List.takeWhile_eq_self_iff]
  intro b hb
  simpa using fun h0 : b = 0 => h (h0 ▸ hb)

theorem cstr_initial (buf : Bytes) : cstr buf <+: buf := List.takeWhile_prefix _

/-- The C reading is the whole buffer exactly when no byte of it is zero. -/
theorem cstr_eq_self_iff {buf : Bytes} : cstr buf = buf ↔ 0 ∉ buf := by
  refine ⟨fun h h0 => ?_, cstr_eq_self⟩
  have h1 := List.takeWhile_eq_self_iff.mp h 0 h0
  simp at h1

@[simp] theorem cstr_nil : cstr [] = [] := rfl

theorem not_mem_cstr (buf : Bytes) : 0 ∉ cstr buf := fun h => by
  simpa using List.mem_takeWhile_imp h

/-- `s.c_str()` handed on as a `const char*`. -/
def c_str (s : Bytes) : CString := ⟨cstr s, not_mem_cstr s⟩

end Autocom
