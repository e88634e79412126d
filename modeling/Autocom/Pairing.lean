import Autocom.Receive

/-! # Which bytes `writeread` returns

`writeread` writes, waits for any input and returns what `gets` finds. Nothing
discards what is pending when the request is queued, so the text starts with
the first byte that no call has drained yet, whenever that byte arrived. -/
namespace Autocom.Pairing
open Autocom Autocom.Lib.Lts Autocom.Machine
open Autocom.Expect (Regex)
open Autocom.Receive (Delivers step_delivers taken_append_pending)

/-- Byte `i` of the text is byte `start + i` of what was received; the bytes
from `mark` on were received after the request was queued. -/
def OnlyFresh (r : Reply) : Prop := ∀ i < r.text.length, r.mark ≤ r.start + i

instance (r : Reply) : Decidable (OnlyFresh r) :=
  inferInstanceAs (Decidable (∀ i < r.text.length, r.mark ≤ r.start + i))

theorem onlyFresh_iff (r : Reply) : OnlyFresh r ↔ r.text = [] ∨ r.mark ≤ r.start := by
  constructor
  · intro h
    by_cases htext : r.text = []
    · exact .inl htext
    · exact .inr (h 0 (List.length_pos_iff.mpr htext))
  · rintro (htext | hle) i hi
    · rw [htext] at hi
      exact absurd hi (Nat.not_lt_zero i)
    · omega

/-! ## The invariant -/

/-- What `recFrom` has delivered and `putIn` has not stored yet; `none` once the
process is gone. -/
def arriving : IoPc → Option Bytes
  | .storing shot => some shot
  | .gone => none
  | _ => some []

/-- The request a thread is in the middle of. -/
def Asked (s : Sys) (q : Nat × Nat) : Prop :=
  (∃ pc, s.script = .running pc ∧ pc.query = some q) ∨
    ∃ pc, s.io = .notifying pc ∧ pc.query = some q

/-- The text is a piece of what was received. -/
structure Sound (received : Bytes) (r : Reply) : Prop where
  held : r.held ≤ r.start
  text : r.text <+: received.drop r.start

structure Inv (s : Sys) : Prop where
  prior : s.dev.log.stored <+: s.dev.log.received
  arrived : ∀ w, arriving s.io = some w → s.dev.log.stored ++ w = s.dev.log.received
  asked : ∀ q, Asked s q → q.2 ≤ s.dev.log.taken.length
  replies : ∀ r ∈ s.dev.log.replies, Sound s.dev.log.received r

theorem Sound.grow {l l' : Bytes} {r : Reply} (h : Sound l r) (hl : l <+: l') : Sound l' r :=
  ⟨h.held, h.text.trans (hl.drop r.start)⟩

/-- What the input buffer holds was received next after what was drained. -/
theorem Inv.pending {s : Sys} (h : Inv s)
    (hpipe : s.dev.log.taken ++ s.dev.io.in_ = s.dev.log.stored) :
    s.dev.io.in_ <+: s.dev.log.received.drop s.dev.log.taken.length := by
  obtain ⟨rest, hrest⟩ := h.prior
  rw [← hrest, ← hpipe, List.append_assoc, List.drop_left]
  exact List.prefix_append _ _

/-- A step outside the calls keeps the drained bytes and the replies; it may
extend what was received and stored. -/
theorem Inv.outside {s t : Sys} (h : Inv s)
    (hdrained : t.dev.log.drained = s.dev.log.drained)
    (hreplies : t.dev.log.replies = s.dev.log.replies)
    (hreceived : s.dev.log.received <+: t.dev.log.received)
    (hprior : t.dev.log.stored <+: t.dev.log.received)
    (harrived : ∀ w, arriving t.io = some w → t.dev.log.stored ++ w = t.dev.log.received)
    (hasked : ∀ q, Asked t q → Asked s q) : Inv t := by
  refine ⟨hprior, harrived, ?_, ?_⟩
  · intro q hq
    have hle := h.asked q (hasked q hq)
    rwa [show t.dev.log.taken = s.dev.log.taken by simp only [Log.taken, hdrained]]
  · intro r hr
    rw [hreplies] at hr
    exact (h.replies r hr).grow hreceived

/-- A step that touches neither the input nor the log of it. -/
theorem Inv.stay {s t : Sys} (h : Inv s)
    (hdrained : t.dev.log.drained = s.dev.log.drained)
    (hreplies : t.dev.log.replies = s.dev.log.replies)
    (hreceived : t.dev.log.received = s.dev.log.received)
    (hstored : t.dev.log.stored = s.dev.log.stored)
    (harrived : ∀ w, arriving t.io = some w → arriving s.io = some w)
    (hasked : ∀ q, Asked t q → Asked s q) : Inv t := by
  refine h.outside hdrained hreplies (by rw [hreceived]) ?_ ?_ hasked
  · rw [hstored, hreceived]; exact h.prior
  · intro w hw
    rw [hstored, hreceived]
    exact h.arrived w (harrived w hw)

/-- A step of a call, on either thread. -/
theorem Inv.call {s t : Sys} (h : Inv s)
    (hpipe : s.dev.log.taken ++ s.dev.io.in_ = s.dev.log.stored) {pc pc' : CallPc}
    (heffect : CallEffect s.dev pc t.dev pc')
    (hpc : ∀ q, pc.query = some q → Asked s q)
    (harrived : arriving t.io = arriving s.io)
    (hasked : ∀ q, Asked t q → Asked s q ∨ pc'.query = some q) : Inv t := by
  obtain ⟨-, -, hreceived, hstored⟩ := heffect.moved.frame
  have hgrow := heffect.moved.taken_le
  have hquery : ∀ q, Asked t q → q.2 ≤ t.dev.log.taken.length := by
    intro q hq
    have hold : ∀ q, Asked s q → q.2 ≤ t.dev.log.taken.length :=
      fun q hq => (h.asked q hq).trans hgrow
    rcases hasked q hq with hs | hnew
    · exact hold q hs
    · rcases heffect.query q hnew with hpc' | rfl
      · exact hold q (hpc q hpc')
      · exact hgrow
  have harr : ∀ w, arriving t.io = some w → t.dev.log.stored ++ w = t.dev.log.received := by
    intro w hw
    rw [hstored, hreceived]
    exact h.arrived w (harrived ▸ hw)
  have hprior : t.dev.log.stored <+: t.dev.log.received := by
    rw [hstored, hreceived]; exact h.prior
  cases heffect.moved with
  | keep io_eq log_eq =>
    refine ⟨hprior, harr, hquery, ?_⟩
    rw [log_eq]; exact h.replies
  | queue bs io_eq log_eq =>
    refine ⟨hprior, harr, hquery, ?_⟩
    rw [log_eq]; exact h.replies
  | drain text replies io_eq log_eq hasks =>
    refine ⟨hprior, harr, hquery, ?_⟩
    intro r hr
    rw [log_eq] at hr
    rcases List.mem_append.mp hr with hr | hr
    · exact (h.replies r hr).grow (by rw [hreceived])
    · obtain ⟨hq, hstart, htext⟩ := hasks r hr
      refine ⟨?_, ?_⟩
      · rw [hstart]; exact h.asked _ (hpc _ hq)
      · rw [hstart, htext, hreceived]
        exact (cstr_initial _).trans (h.pending hpipe)

/-- **One step.** -/
theorem step_inv {regex : Regex} {s t : Sys} {a : Act} (h : Inv s) (hearly : Unstarted s)
    (hpipe : s.dev.log.taken ++ s.dev.io.in_ = s.dev.log.stored)
    (hstep : step regex s a = some t) : Inv t := by
  refine step_induct (Q := Inv) ?_ ?_ ?_ hstep
  · intro u hu
    exact hu.stay rfl rfl rfl rfl nofun (by rintro q (⟨pc, hpc, -⟩ | ⟨pc, hpc, -⟩) <;> cases hpc)
  · intro b d pc _ hmove
    obtain ⟨dev, sc, io⟩ := s
    have hsame : ∀ io' d', (∀ pc, io' = .notifying pc → pc.query = none) →
        ∀ q, Asked ⟨d', sc, io'⟩ q → Asked ⟨dev, sc, io⟩ q := by
      rintro io' d' hio q (hq | ⟨pc, rfl, hq⟩)
      · exact .inl hq
      · rw [hio pc rfl] at hq; cases hq
    cases hmove with
    | received shot hpc hshot =>
      have hempty : dev.log.stored = dev.log.received := by
        simpa using h.arrived [] rfl
      refine h.outside rfl rfl (List.prefix_append _ _) ?_ ?_ (hsame _ _ nofun)
      · exact h.prior.trans (List.prefix_append _ _)
      · intro w hw
        obtain rfl : shot = w := Option.some.inj hw
        exact congrArg (· ++ shot) hempty
    | stored shot pc hpc =>
      have harrived : dev.log.stored ++ shot = dev.log.received := h.arrived shot rfl
      refine h.outside rfl rfl List.prefix_rfl (by rw [← harrived]) ?_ (hsame _ _ ?_)
      · intro w hw
        have hw' : w = [] := by rcases hpc with rfl | rfl <;> exact (Option.some.inj hw).symm
        rw [hw', List.append_nil]
        exact harrived
      · rcases hpc with rfl | rfl
        · nofun
        · intro pc hpc; cases hpc; rfl
    | callback pc pc' a d' hcall =>
      refine h.call hpipe (callStep_effect hcall) (fun q hq => .inr ⟨pc, rfl, hq⟩) rfl ?_
      rintro q (hq | ⟨_, hio, hq⟩)
      · exact .inl (.inl hq)
      · cases hio; exact .inr hq
    | refused =>
      exact h.stay rfl rfl rfl rfl (fun w hw => hw) (hsame _ _ nofun)
    | left d' hd =>
      rcases hd with rfl | rfl <;>
        exact h.stay rfl rfl rfl rfl (fun w hw => hw) (hsame _ _ nofun)
    | _ => exact h.stay rfl rfl rfl rfl (fun w hw => hw) (hsame _ _ nofun)
  · intro b d pc io _ hmove
    obtain ⟨dev, sc, io₀⟩ := s
    have hsame : ∀ sc' d', (∀ pc, sc' = .running pc → pc.query = none) →
        ∀ q, Asked ⟨d', sc', io₀⟩ q → Asked ⟨dev, sc, io₀⟩ q := by
      rintro sc' d' hsc q (⟨pc, rfl, hq⟩ | hq)
      · rw [hsc pc rfl] at hq; cases hq
      · exact .inr hq
    have hready : ∀ pc ret, ScriptPc.running (.ready ret) = .running pc → pc.query = none := by
      intro pc ret hpc; cases hpc; rfl
    cases hmove with
    | call pc pc' a d' hcall =>
      refine h.call hpipe (callStep_effect hcall) (fun q hq => .inl ⟨pc, rfl, hq⟩) rfl ?_
      rintro q (⟨_, hsc, hq⟩ | hq)
      · cases hsc; exact .inr hq
      · exact .inl (.inr hq)
    | portless => exact h.stay rfl rfl rfl rfl (fun w hw => hw) (hsame _ _ fun pc => hready pc _)
    | constructed =>
      exact h.stay rfl rfl rfl rfl (fun w hw => hw) (hsame _ _ fun pc => hready pc _)
    | started =>
      obtain rfl : io₀ = .absent := hearly rfl
      exact h.stay rfl rfl rfl rfl (fun w hw => hw)
        (by rintro q (⟨pc, hpc, -⟩ | ⟨pc, hpc, -⟩) <;> cases hpc)
    | unstarted =>
      exact h.stay rfl rfl rfl rfl nofun
        (by rintro q (⟨pc, hpc, -⟩ | ⟨pc, hpc, -⟩) <;> cases hpc)
    | nullClose =>
      exact h.stay rfl rfl rfl rfl nofun
        (by rintro q (⟨pc, hpc, -⟩ | ⟨pc, hpc, -⟩) <;> cases hpc)
    | _ => exact h.stay rfl rfl rfl rfl (fun w hw => hw) (hsame _ _ nofun)

theorem inv_reachable {regex : Regex} {cred : CString} {proc : Option CString} {s : Sys}
    (h : Reachable regex cred proc s) : Inv s := by
  obtain ⟨acts, hrun⟩ := h
  have hinit : Inv (Sys.init cred proc) := by
    refine ⟨List.prefix_rfl, ?_, ?_, nofun⟩
    · intro w hw; cases hw; rfl
    · rintro q (⟨pc, hpc, -⟩ | ⟨pc, hpc, -⟩) <;> cases hpc
  refine (run_invariant (I := fun s => Inv s ∧ Unstarted s ∧ ∃ p, Delivers s p) ?_
    ⟨hinit, fun _ => rfl, .empty, rfl, rfl, rfl⟩ hrun).1
  rintro s a t ⟨hinv, hearly, p, hp⟩ hst
  obtain ⟨q, -, hq⟩ := step_delivers hp hst
  exact ⟨step_inv hinv hearly hp.law hst, step_unstarted hearly hst, q, hq⟩

/-- Nothing received is waiting for a reader exactly when as many bytes have
been drained as were received. -/
theorem taken_eq_received_iff {regex : Regex} {cred : CString} {proc : Option CString} {s : Sys}
    (h : Reachable regex cred proc s) (hgone : s.io ≠ .gone) :
    s.dev.log.received.length ≤ s.dev.log.taken.length ↔
      s.dev.io.in_ = [] ∧ arriving s.io = some [] := by
  have hinv := inv_reachable h
  obtain ⟨w, hw⟩ : ∃ w, arriving s.io = some w := by
    unfold arriving
    split
    · exact ⟨_, rfl⟩
    · next hio => exact absurd hio hgone
    · exact ⟨_, rfl⟩
  have hlen := congrArg List.length (hinv.arrived w hw)
  rw [← taken_append_pending h] at hlen
  simp only [List.length_append] at hlen
  rw [hw, Option.some.injEq, ← List.length_eq_zero_iff, ← List.length_eq_zero_iff]
  omega

/-- **The text of a `writeread` is a piece of the received stream that starts
with the first byte not drained when `gets` runs.** So it holds only bytes
received after the request was queued exactly when it is empty or all that came
before had been drained by then, as when nothing was waiting at the request. -/
theorem reply_onlyFresh_iff (regex : Regex) (cred : CString) (proc : Option CString)
    (acts : List Act) (s : Sys) (h : run (step regex) (Sys.init cred proc) acts = some s)
    (r : Reply) (hr : r ∈ s.dev.log.replies) :
    r.text <+: s.dev.log.received.drop r.start ∧
      (OnlyFresh r ↔ r.text = [] ∨ r.mark ≤ r.start) ∧
      (r.mark ≤ r.held → OnlyFresh r) := by
  have hsound := (inv_reachable ⟨acts, h⟩).replies r hr
  refine ⟨hsound.text, onlyFresh_iff r, fun hle => ?_⟩
  exact (onlyFresh_iff r).mpr (.inr (hle.trans hsound.held))

/-! ## A late reply -/

def charQ : CString := ⟨[0x71], by decide⟩

/-- A turn of the IO thread that sends what is queued and finds `shot`. -/
def exchange (shot : Bytes) : List Act :=
  [.io .step, .io .step, .io .step, .io .step, .io (.wrote 1), .io (.sent 0),
    .io (.received (some shot))]

/-- `writeread("q", 0)`; nothing has come when the wait ends. -/
def request (shot : Bytes) : List Act :=
  [.script (.act (.call (.writeread charQ (some 0)) 0))] ++ exchange shot ++
    List.replicate 4 (.script (.act (.turn ⟨0, 0, 0⟩)))

/-- The reply `1` to the first request arrives after its timeout, and is what
the second one returns. -/
def lateReply : List Act :=
  connect ++ request [] ++ [.io .step, .io .step, .io (.received (some [0x31])), .io .step] ++
    request []

theorem late_reply_returned :
    ∃ s, run (step fun _ => none) (Sys.init ttyCred none) lateReply = some s ∧
      ∃ r ∈ s.dev.log.replies, ¬ OnlyFresh r :=
  ⟨_, rfl, ⟨1, 0, 0, [0x31]⟩, by decide, by decide⟩

theorem reply_onlyFresh_iff_late :
    ∃ s, run (step fun _ => none) (Sys.init ttyCred none) lateReply = some s ∧
      ([0x31] : Bytes) <+: s.dev.log.received.drop 0 ∧
      (OnlyFresh ⟨1, 0, 0, [0x31]⟩ ↔ ([0x31] : Bytes) = [] ∨ 1 ≤ 0) ∧
      (1 ≤ 0 → OnlyFresh ⟨1, 0, 0, [0x31]⟩) :=
  ⟨_, rfl, reply_onlyFresh_iff (fun _ => none) ttyCred none lateReply _ rfl ⟨1, 0, 0, [0x31]⟩
    (by decide)⟩

end Autocom.Pairing
