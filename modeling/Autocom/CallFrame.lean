import Autocom.Machine

/-! # What the calls leave alone

A turn inside a call reads the input and moves the call along; it never writes,
never touches the port and changes no setting. So what a call does to the output
queue, to the port and to the settings it does when it starts. -/
namespace Autocom
open Autocom.Expect (Regex Turn)

/-- The parts of the object that no turn touches. -/
structure TurnFrame (d d' : Dev) : Prop where
  port : d'.pc = d.pc
  out : d'.io.out_ = d.io.out_
  queued : d'.log.queued = d.log.queued
  eol : d'.eol = d.eol
  tout : d'.tout = d.tout
  outproc : d'.outproc = d.outproc
  progAlive : d'.progAlive = d.progAlive

theorem TurnFrame.refl (d : Dev) : TurnFrame d d := ⟨rfl, rfl, rfl, rfl, rfl, rfl, rfl⟩

theorem turnCall_frame {regex : Regex} {d d' : Dev} {t : Turn} {pc pc' : CallPc}
    (h : turnCall regex d t pc = some (d', pc')) : TurnFrame d d' := by
  cases pc with
  | ready | aborted => cases h
  | completing k =>
    simp only [turnCall] at h
    split at h
    · cases h; exact .refl d
    · cases k <;> cases h <;> exact .refl d
  | any | readTest =>
    simp only [turnCall] at h
    split at h <;> cases h <;> exact .refl d
  | anyEnd k => cases k <;> cases h <;> exact .refl d
  | gets query =>
    simp only [turnCall, Dev.drain_eq] at h
    cases query <;> cases h <;> exact ⟨rfl, rfl, rfl, rfl, rfl, rfl, rfl⟩
  | readLen => cases h; exact .refl d
  | readMake max =>
    simp only [turnCall, Dev.drain_eq] at h
    split at h
    · cases h; exact .refl d
    · split at h <;> cases h <;> exact ⟨rfl, rfl, rfl, rfl, rfl, rfl, rfl⟩
  | strwaitt expr expire infinite fetch =>
    cases fetch <;> simp only [turnCall, Dev.drain_eq] at h <;> split at h <;> cases h <;>
      exact ⟨rfl, rfl, rfl, rfl, rfl, rfl, rfl⟩
  | strstr strings expire fetch =>
    cases fetch <;> simp only [turnCall, Dev.drain_eq] at h <;> split at h <;> cases h <;>
      exact ⟨rfl, rfl, rfl, rfl, rfl, rfl, rfl⟩
  | binwaitt needle sz expire infinite =>
    simp only [turnCall, Dev.drain_eq] at h
    split at h
    · split at h <;> cases h <;> exact ⟨rfl, rfl, rfl, rfl, rfl, rfl, rfl⟩
    · cases h; exact .refl d

/-- The call is `close()`. -/
def isClose : CallAct → Bool
  | .call .close _ => true
  | _ => false

/-- Only `close()` touches the port, and it does not open it. -/
theorem callStep_port {regex : Regex} {d d' : Dev} {pc pc' : CallPc} {a : CallAct}
    (h : callStep regex d pc a = some (d', pc')) :
    (d'.pc = some true → d.pc = some true) ∧ (isClose a = false → d'.pc = d.pc) := by
  have hsame : d'.pc = d.pc → _ := fun heq =>
    (⟨fun ht => heq ▸ ht, fun _ => heq⟩ :
      (d'.pc = some true → d.pc = some true) ∧ (isClose a = false → d'.pc = d.pc))
  cases a with
  | turn t => exact hsame (turnCall_frame h).port
  | call c tick =>
    cases pc with
    | ready ret =>
      have hstart : startCall d tick c = (d', pc') := Option.some.inj h
      have hd : d' = (startCall d tick c).1 := by rw [hstart]
      cases c with
      | close =>
        subst hd
        refine ⟨fun ht => ?_, nofun⟩
        cases hpc : d.pc with
        | none => simp [startCall, hpc] at ht
        | some port => simp [startCall, hpc, Dev.shut] at ht
      | writeArray | writereadArray | binwaitt =>
        refine hsame ?_
        subst hd
        simp only [startCall]
        split <;> rfl
      | _ => exact hsame (by subst hd; rfl)
    | _ => cases h

/-! ## What is queued -/

/-- What an action of a thread inside the calls queues. -/
def CallAct.output (eol : Bytes) : CallAct → Bytes
  | .call c _ => (c.output eol).getD []
  | .turn _ => []

end Autocom

namespace Autocom.Machine
open Autocom
open Autocom.Expect (Regex)

/-- What an action of the system queues. -/
def Act.output (eol : Bytes) : Act → Bytes
  | .script (.act a) | .io (.callback a) => a.output eol
  | _ => []

end Autocom.Machine
