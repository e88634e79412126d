import Mathlib.Logic.Relation
import Mathlib.Data.List.Basic

/-! # A pipe: what was put, what was taken, what is still inside

The purpose of every buffer between two parties, in its own terms. The two
histories and the content cannot get out of step, because the law that ties
them is a field: whatever is built from `push` and `take` neither loses, nor
repeats, nor reorders an element. -/
namespace Autocom.Lib

variable {α : Type*}

/-- Elements go in at the back and come out at the front. -/
structure Pipe (α : Type*) where
  put : List α
  got : List α
  rest : List α
  conserve : got ++ rest = put

namespace Pipe

def empty : Pipe α := ⟨[], [], [], rfl⟩

def push (p : Pipe α) (xs : List α) : Pipe α :=
  ⟨p.put ++ xs, p.got, p.rest ++ xs, by rw [← List.append_assoc, p.conserve]⟩

def take (p : Pipe α) (n : Nat) : Pipe α :=
  ⟨p.put, p.got ++ p.rest.take n, p.rest.drop n, by
    rw [List.append_assoc, List.take_append_drop, p.conserve]⟩

@[simp] theorem push_put (p : Pipe α) (xs : List α) : (p.push xs).put = p.put ++ xs := rfl
@[simp] theorem push_got (p : Pipe α) (xs : List α) : (p.push xs).got = p.got := rfl
@[simp] theorem push_rest (p : Pipe α) (xs : List α) : (p.push xs).rest = p.rest ++ xs := rfl
@[simp] theorem take_put (p : Pipe α) (n : Nat) : (p.take n).put = p.put := rfl
@[simp] theorem take_got (p : Pipe α) (n : Nat) :
    (p.take n).got = p.got ++ p.rest.take n := rfl
@[simp] theorem take_rest (p : Pipe α) (n : Nat) : (p.take n).rest = p.rest.drop n := rfl

/-- What came out is an initial part of what went in. -/
theorem got_prefix (p : Pipe α) : p.got <+: p.put := ⟨p.rest, p.conserve⟩

/-- Each move of a pipe is a push or a take. -/
inductive Moves : Pipe α → Pipe α → Prop
  | push (p : Pipe α) (xs : List α) : Moves p (p.push xs)
  | take (p : Pipe α) (n : Nat) : Moves p (p.take n)

end Pipe

end Autocom.Lib
