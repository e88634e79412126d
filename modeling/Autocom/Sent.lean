import Autocom.Machine

/-! # When a write returns

`_waitCompletion` watches the queue, and the IO thread empties the queue before
it calls `sendTo`, whose result it uses only to give up. Beside the machine goes
a ledger of positions in what has been queued: the last batch of `getOut`, the
batches whose `sendTo` has returned 0, and what each call that returned had
queued. -/
namespace Autocom.Sent
open Autocom Autocom.Lib.Lts Autocom.Machine
open Autocom.Expect (Regex Turn)

/-! ## The ledger -/

/-- The positions from `lo` up to `hi`. -/
structure Span where
  lo : Nat
  hi : Nat
  deriving DecidableEq

def Span.Has (r : Span) (p : Nat) : Prop := r.lo ≤ p ∧ p < r.hi

/-- The bytes at these positions. -/
def Span.of (r : Span) (bs : Bytes) : Bytes := (bs.take r.hi).drop r.lo

structure Ledger where
  sys : Sys
  batch : Span
  acked : List Span
  call : Span
  returned : List Span

/-- The position of the first byte in the queue. -/
def front (d : Dev) : Nat := d.log.queued.length - d.io.out_.length

def fetches (s : Sys) : Act → Bool
  | .io .step => match s.io with
    | .fetch => true
    | _ => false
  | _ => false

def acks : Act → Bool
  | .io (.sent rv) => rv == 0
  | _ => false

def starts : Act → Bool
  | .script (.act (.call _ _)) => true
  | _ => false

/-- A call that writes returns, with `__alive` true and no -1 from the hook. -/
def returns (s : Sys) (a : Act) (t : Sys) : Bool :=
  match s.script, a, t.script with
  | .running (.completing .done), .script (.act (.turn u)), .running (.ready _) =>
    s.dev.progAlive && u.hook != -1
  | _, _, _ => false

def Ledger.after (l : Ledger) (a : Act) (t : Sys) : Ledger where
  sys := t
  batch := if fetches l.sys a then ⟨front l.sys.dev, l.sys.dev.log.queued.length⟩ else l.batch
  acked := if acks a then l.acked ++ [l.batch] else l.acked
  call := if starts a then ⟨l.sys.dev.log.queued.length, t.dev.log.queued.length⟩ else l.call
  returned := if returns l.sys a t then l.returned ++ [l.call] else l.returned

def Ledger.step (regex : Regex) (l : Ledger) (a : Act) : Option Ledger :=
  (Machine.step regex l.sys a).map (l.after a)

def Ledger.init (cred : CString) (proc : Option CString) : Ledger :=
  ⟨Sys.init cred proc, ⟨0, 0⟩, [], ⟨0, 0⟩, []⟩

/-- Each byte that a call queued before it returned is in a batch whose `sendTo`
has returned 0. -/
def AllSent (l : Ledger) : Prop :=
  ∀ r ∈ l.returned, ∀ p, r.Has p → ∃ b ∈ l.acked, b.Has p

/-! ## What the IO thread does with a batch -/

/-- The argument of `sendTo`, from `getOut` to its return. -/
def batch : IoPc → Option Bytes
  | .calling temp => some temp
  | .sending temp _ => some temp
  | _ => none

/-- `sendTo` ends, and not with 0. -/
def drops (s : Sys) : Act → Bool
  | .io (.sent rv) => rv != 0
  | .io .step => match s.io with
    | .calling _ => s.dev.pc != some true
    | _ => false
  | _ => false

/-- The queue and what has been queued grow together. -/
structure Grows (d d' : Dev) : Prop where
  both : ∃ bs, d'.log.queued = d.log.queued ++ bs ∧ d'.io.out_ = d.io.out_ ++ bs
  acked : d'.log.acked = d.log.acked

theorem Grows.same {d d' : Dev} (hqueued : d'.log.queued = d.log.queued)
    (hout : d'.io.out_ = d.io.out_) (hacked : d'.log.acked = d.log.acked) : Grows d d' :=
  ⟨⟨[], by rw [hqueued, List.append_nil], by rw [hout, List.append_nil]⟩, hacked⟩

theorem grows_of_moved {d d' : Dev} {pc : CallPc} (h : Moved d pc d') : Grows d d' := by
  cases h with
  | keep io log => exact .same (by rw [log]) (by rw [io]) (by rw [log])
  | queue bs io log =>
    exact ⟨⟨bs, by rw [log], by rw [io, IoData.putOut_out]⟩, by rw [log]⟩
  | drain text replies io log asked => exact .same (by rw [log]) (by rw [io]) (by rw [log])

theorem Grows.front_eq {d d' : Dev} (h : Grows d d') : front d' = front d := by
  obtain ⟨bs, hqueued, hout⟩ := h.both
  rw [front, hqueued, hout, List.length_append, List.length_append, front]
  omega

theorem Grows.length_le {d d' : Dev} (h : Grows d d') :
    d.log.queued.length ≤ d'.log.queued.length := by
  obtain ⟨bs, hqueued, -⟩ := h.both
  rw [hqueued, List.length_append]
  omega

/-- A move of the IO thread takes a batch, has sent it, drops it, or leaves it as
it is. -/
inductive Handled (s : Sys) (b : IoAct) (d : Dev) (pc : IoPc) : Prop
  | taken (hio : s.io = .fetch) (hb : b = .step) (hpc : batch pc = some s.dev.io.out_)
    (hqueued : d.log.queued = s.dev.log.queued) (hout : d.io.out_ = [])
    (hacked : d.log.acked = s.dev.log.acked)
  | sent (temp : Bytes) (hio : batch s.io = some temp) (hb : b = .sent 0) (hpc : batch pc = none)
    (hqueued : d.log.queued = s.dev.log.queued) (hout : d.io.out_ = s.dev.io.out_)
    (hacked : d.log.acked = s.dev.log.acked ++ temp)
  | dropped (hdrops : drops s (.io b) = true) (hpc : batch pc = none) (hgrows : Grows s.dev d)
    (hfetch : fetches s (.io b) = false) (hacks : acks (.io b) = false)
  | kept (hpc : batch pc = batch s.io) (hgrows : Grows s.dev d)
    (hfetch : fetches s (.io b) = false) (hacks : acks (.io b) = false)

theorem handled_of_move {regex : Regex} {s : Sys} {b : IoAct} {d : Dev} {pc : IoPc}
    (h : IoMove regex s.dev s.io b d pc) : Handled s b d pc := by
  obtain ⟨dev, sc, io⟩ := s
  have hsame : Grows dev dev := .same rfl rfl rfl
  cases h with
  | fetch => exact .taken rfl rfl rfl rfl rfl rfl
  | sentAll temp => exact .sent temp rfl rfl rfl rfl rfl rfl
  | unsendable temp hpc => exact .dropped (bne_iff_ne.mpr hpc) rfl hsame rfl rfl
  | timedOut temp left hleft => exact .dropped rfl rfl hsame rfl rfl
  | sendFailed temp left hleft => exact .dropped rfl rfl hsame rfl rfl
  | callback pc pc' a d' hcall =>
    exact .kept rfl (grows_of_moved (callStep_effect hcall).moved) rfl rfl
  | stored shot pc hpc =>
    rcases hpc with rfl | rfl <;> exact .kept rfl (.same rfl rfl rfl) rfl rfl
  | left d' hd => rcases hd with rfl | rfl <;> exact .kept rfl (.same rfl rfl rfl) rfl rfl
  | _ => exact .kept rfl (.same rfl rfl rfl) rfl rfl

/-- A move of the script thread leaves the IO thread's batch alone, and takes the
queue with it. -/
theorem grows_of_script {regex : Regex} {d d' : Dev} {io io' : IoPc} {pc pc' : ScriptPc}
    {a : ScriptAct} (h : ScriptMove regex d io pc a d' pc' io') :
    Grows d d' ∧ (io' = io ∨ batch io' = none) := by
  cases h with
  | call pc pc' a d' hcall =>
    exact ⟨grows_of_moved (callStep_effect hcall).moved, .inl rfl⟩
  | started | unstarted | nullClose => exact ⟨.same rfl rfl rfl, .inr rfl⟩
  | _ => exact ⟨.same rfl rfl rfl, .inl rfl⟩

/-! ## The ledger keeps the bytes -/

theorem after_kept {l : Ledger} {b : IoAct} (hfetch : fetches l.sys (.io b) = false)
    (hacks : acks (.io b) = false) (t : Sys) :
    l.after (.io b) t = ⟨t, l.batch, l.acked, l.call, l.returned⟩ := by
  simp [Ledger.after, hfetch, hacks, starts, returns]

theorem after_taken {l : Ledger} (hio : l.sys.io = .fetch) (t : Sys) :
    l.after (.io .step) t =
      ⟨t, ⟨front l.sys.dev, l.sys.dev.log.queued.length⟩, l.acked, l.call, l.returned⟩ := by
  simp [Ledger.after, fetches, hio, acks, starts, returns]

theorem after_call (l : Ledger) (c : Call) (tick : Int) (t : Sys) :
    l.after (.script (.act (.call c tick))) t =
      ⟨t, l.batch, l.acked, ⟨l.sys.dev.log.queued.length, t.dev.log.queued.length⟩,
        l.returned⟩ := by
  simp [Ledger.after, fetches, acks, starts, returns]

theorem after_turn (l : Ledger) (u : Turn) (t : Sys) :
    l.after (.script (.act (.turn u))) t =
      ⟨t, l.batch, l.acked, l.call,
        if returns l.sys (.script (.act (.turn u))) t then l.returned ++ [l.call]
        else l.returned⟩ := rfl

theorem after_script {l : Ledger} {b : ScriptAct} (hb : ∀ a, b ≠ .act a) (t : Sys) :
    l.after (.script b) t = ⟨t, l.batch, l.acked, l.call, l.returned⟩ := by
  cases b with
  | act a => exact absurd rfl (hb a)
  | _ => simp [Ledger.after, fetches, acks, starts, returns]

theorem after_sent (l : Ledger) (t : Sys) :
    l.after (.io (.sent 0)) t = ⟨t, l.batch, l.acked ++ [l.batch], l.call, l.returned⟩ := by
  simp [Ledger.after, fetches, acks, starts, returns]

theorem Span.of_append {r : Span} {bs : Bytes} (h : r.hi ≤ bs.length) (cs : Bytes) :
    r.of (bs ++ cs) = r.of bs := by
  rw [Span.of, List.take_append_of_le_length h, Span.of]

/-- The span of what is in the queue. -/
theorem front_of {d : Dev} (h : d.io.out_ <:+ d.log.queued) :
    (Span.mk (front d) d.log.queued.length).of d.log.queued = d.io.out_ := by
  obtain ⟨pre, hpre⟩ := h
  rw [Span.of, List.take_length, front, ← hpre, List.length_append, Nat.add_sub_cancel,
    List.drop_left]

/-- The spans are those of the bytes in the queue, in the batch and in the
`sendTo` calls that returned 0. -/
structure Books (l : Ledger) : Prop where
  out : l.sys.dev.io.out_ <:+ l.sys.dev.log.queued
  batch : ∀ temp, batch l.sys.io = some temp →
    l.batch.hi ≤ l.sys.dev.log.queued.length ∧ l.batch.of l.sys.dev.log.queued = temp
  within : ∀ b ∈ l.acked, b.hi ≤ l.sys.dev.log.queued.length
  acked : l.acked.flatMap (Span.of · l.sys.dev.log.queued) = l.sys.dev.log.acked

/-- A step that takes no batch and ends no `sendTo` with 0. -/
theorem Books.grow {l : Ledger} (h : Books l) {t : Sys} (hgrows : Grows l.sys.dev t.dev)
    (hbatch : Sent.batch t.io = Sent.batch l.sys.io ∨ Sent.batch t.io = none)
    (call : Span) (returned : List Span) : Books ⟨t, l.batch, l.acked, call, returned⟩ := by
  obtain ⟨bs, hqueued, hout⟩ := hgrows.both
  refine ⟨?_, ?_, ?_, ?_⟩
  · obtain ⟨pre, hpre⟩ := h.out
    exact ⟨pre, by rw [hout, ← List.append_assoc, hpre, hqueued]⟩
  · intro temp htemp
    rcases hbatch with hsame | hnone
    · obtain ⟨hhi, hof⟩ := h.batch temp (hsame ▸ htemp)
      refine ⟨Nat.le_trans hhi hgrows.length_le, ?_⟩
      rw [hqueued, Span.of_append hhi, hof]
    · rw [hnone] at htemp; cases htemp
  · exact fun b hb => Nat.le_trans (h.within b hb) hgrows.length_le
  · rw [hgrows.acked, ← h.acked, hqueued]
    exact List.flatMap_congr fun b hb => Span.of_append (h.within b hb) bs

/-- **One step** keeps the books. -/
theorem step_books {regex : Regex} {l l' : Ledger} {a : Act} (h : Books l)
    (hstep : l.step regex a = some l') : Books l' := by
  obtain ⟨t, ht, rfl⟩ := Option.map_eq_some_iff.mp hstep
  refine step_induct (Q := fun u => Books (l.after a u)) ?_ ?_ ?_ ht
  · exact fun u hu => ⟨hu.out, nofun, hu.within, hu.acked⟩
  · intro b d pc hb hmove
    subst hb
    cases handled_of_move hmove with
    | taken hio hb hpc hqueued hout hacked =>
      subst hb
      rw [after_taken hio]
      refine ⟨by rw [hout]; exact List.nil_suffix, ?_, by rw [hqueued]; exact h.within, ?_⟩
      · intro temp htemp
        obtain rfl : l.sys.dev.io.out_ = temp := Option.some.inj (hpc.symm.trans htemp)
        rw [hqueued]
        exact ⟨Nat.le_refl _, front_of h.out⟩
      · rw [hqueued, hacked]; exact h.acked
    | sent temp hio hb hpc hqueued hout hacked =>
      subst hb
      rw [after_sent]
      obtain ⟨hhi, hof⟩ := h.batch temp hio
      refine ⟨by rw [hqueued, hout]; exact h.out, ?_, ?_, ?_⟩
      · intro temp' htemp
        cases hpc.symm.trans htemp
      · intro b hb
        rw [hqueued]
        rcases List.mem_append.mp hb with hb | hb
        · exact h.within b hb
        · obtain rfl := List.mem_singleton.mp hb
          exact hhi
      · rw [List.flatMap_append, List.flatMap_singleton, hqueued, hacked, h.acked, hof]
    | dropped hdrops hpc hgrows hfetch hacks =>
      rw [after_kept hfetch hacks]
      exact h.grow hgrows (.inr hpc) _ _
    | kept hpc hgrows hfetch hacks =>
      rw [after_kept hfetch hacks]
      exact h.grow hgrows (.inl hpc) _ _
  · intro b d pc io hb hmove
    subst hb
    obtain ⟨hgrows, hio⟩ := grows_of_script hmove
    exact h.grow hgrows (hio.imp_left fun heq => by rw [heq]) _ _

/-- Every run of the machine has a ledger, and its books are right. -/
theorem run_books {regex : Regex} {cred : CString} {proc : Option CString} {acts : List Act}
    {s : Sys} (h : run (step regex) (Sys.init cred proc) acts = some s) :
    ∃ l, run (Ledger.step regex) (Ledger.init cred proc) acts = some l ∧ l.sys = s ∧ Books l := by
  have hgen : ∀ (l : Ledger) (acts : List Act), Books l → run (step regex) l.sys acts = some s →
      ∃ l', run (Ledger.step regex) l acts = some l' ∧ l'.sys = s ∧ Books l' := by
    intro l acts hbooks hrun
    induction acts generalizing l with
    | nil => cases hrun; exact ⟨l, rfl, rfl, hbooks⟩
    | cons a rest ih =>
      obtain ⟨t, ht, hrest⟩ := run_cons.mp hrun
      have hstep : l.step regex a = some (l.after a t) := by rw [Ledger.step, ht]; rfl
      obtain ⟨l', hl', heq, hb⟩ := ih (l.after a t) (step_books hbooks hstep) hrest
      exact ⟨l', run_cons.mpr ⟨_, hstep, hl'⟩, heq, hb⟩
  exact hgen (Ledger.init cred proc) acts ⟨List.nil_suffix, nofun, nofun, rfl⟩ h

/-! ## The race -/

/-- The script is in the `_waitCompletion` of a call that only writes. -/
def Waiting (s : Sys) : Prop := s.script = .running (.completing .done)

/-- The batch that the IO thread has taken and not yet sent has a byte of the call. -/
def Holding (l : Ledger) : Prop :=
  (batch l.sys.io).isSome = true ∧ ∃ p, l.call.Has p ∧ l.batch.Has p

instance (l : Ledger) : Decidable (Holding l) :=
  decidable_of_iff ((batch l.sys.io).isSome = true ∧
      max l.call.lo l.batch.lo < min l.call.hi l.batch.hi) <| by
    refine and_congr_right fun _ => ⟨fun h => ⟨max l.call.lo l.batch.lo, ?_, ?_⟩, ?_⟩
    · constructor <;> omega
    · constructor <;> omega
    · intro ⟨p, ⟨hlo, hhi⟩, ⟨hlo', hhi'⟩⟩
      omega

def isWaiting : ScriptPc → Bool
  | .running (.completing .done) => true
  | _ => false

instance (s : Sys) : Decidable (Waiting s) :=
  decidable_of_iff (isWaiting s.script = true) <| by
    unfold isWaiting Waiting
    split
    · next heq => simp [heq]
    · next hne => simpa using hne

/-- The last test of `_waitCompletion`: the queue is empty. -/
def waitEnds (s : Sys) : Act → Bool
  | .script (.act (.turn u)) => s.dev.progAlive && u.hook != -1 && !s.dev.io.hasOutput
  | _ => false

/-- The wait does not end while the IO thread holds bytes of the call, and no
`sendTo` fails on bytes of a call that waits. -/
def Waits (l : Ledger) (a : Act) : Prop :=
  Waiting l.sys → waitEnds l.sys a = true ∨ drops l.sys a = true → ¬ Holding l

structure Inv (l : Ledger) : Prop where
  call : l.call.hi ≤ l.sys.dev.log.queued.length
  pending : Waiting l.sys → ∀ p, l.call.Has p → (∃ b ∈ l.acked, b.Has p) ∨
    ((batch l.sys.io).isSome = true ∧ l.batch.Has p) ∨ front l.sys.dev ≤ p
  sent : AllSent l

/-- A step that acknowledges nothing, after which the batch still has those bytes
of the waiting call that it had. -/
theorem Inv.grow {l : Ledger} (h : Inv l) {t : Sys} (hgrows : Grows l.sys.dev t.dev)
    (hwait : Waiting t → Waiting l.sys)
    (hbatch : Waiting l.sys → ∀ p, l.call.Has p → (batch l.sys.io).isSome = true ∧ l.batch.Has p →
      (batch t.io).isSome = true) :
    Inv ⟨t, l.batch, l.acked, l.call, l.returned⟩ := by
  refine ⟨Nat.le_trans h.call hgrows.length_le, fun hw p hp => ?_, h.sent⟩
  rcases h.pending (hwait hw) p hp with hacked | hin | hfront
  · exact .inl hacked
  · exact .inr (.inl ⟨hbatch (hwait hw) p hp hin, hin.2⟩)
  · exact .inr (.inr (hgrows.front_eq ▸ hfront))

theorem Inv.io_step {regex : Regex} {l : Ledger} {b : IoAct} {d : Dev} {pc : IoPc} (h : Inv l)
    (hwaits : Waits l (.io b)) (hmove : IoMove regex l.sys.dev l.sys.io b d pc) :
    Inv (l.after (.io b) ⟨d, l.sys.script, pc⟩) := by
  cases handled_of_move hmove with
  | taken hio hb hpc hqueued hout hacked =>
    subst hb
    rw [after_taken hio]
    refine ⟨by rw [hqueued]; exact h.call, fun hw p hp => ?_, h.sent⟩
    rcases h.pending hw p hp with hacked | ⟨hsome, -⟩ | hfront
    · exact .inl hacked
    · rw [hio] at hsome; cases hsome
    · exact .inr (.inl ⟨by rw [hpc]; rfl, hfront, Nat.lt_of_lt_of_le hp.2 h.call⟩)
  | sent temp hio hb hpc hqueued hout hacked =>
    subst hb
    rw [after_sent]
    refine ⟨by rw [hqueued]; exact h.call, fun hw p hp => ?_, fun r hr p hp => ?_⟩
    · rcases h.pending hw p hp with ⟨b, hb, hin⟩ | ⟨-, hin⟩ | hfront
      · exact .inl ⟨b, List.mem_append_left _ hb, hin⟩
      · exact .inl ⟨l.batch, List.mem_append_right _ (List.mem_singleton_self _), hin⟩
      · exact .inr (.inr (by rw [front, hqueued, hout]; exact hfront))
    · obtain ⟨b, hb, hin⟩ := h.sent r hr p hp
      exact ⟨b, List.mem_append_left _ hb, hin⟩
  | dropped hdrops hpc hgrows hfetch hacks =>
    rw [after_kept hfetch hacks]
    refine h.grow hgrows id fun hw p hp hin => ?_
    exact absurd ⟨hin.1, p, hp, hin.2⟩ (hwaits hw (.inr hdrops))
  | kept hpc hgrows hfetch hacks =>
    rw [after_kept hfetch hacks]
    refine h.grow hgrows id fun hw p hp hin => ?_
    rw [hpc]
    exact hin.1

/-- A call returns once a test has found the queue empty. -/
theorem waitEnds_of_returns {regex : Regex} {s : Sys} {d : Dev} {pc pc' : CallPc} {u : Turn}
    (hcall : turnCall regex s.dev u pc = some (d, pc')) (hsc : s.script = .running pc)
    (h : returns s (.script (.act (.turn u))) ⟨d, .running pc', s.io⟩ = true) :
    pc = .completing .done ∧ s.dev.io.out_ = [] ∧
      waitEnds s (.script (.act (.turn u))) = true := by
  simp only [returns, hsc] at h
  cases pc with
  | completing k =>
    cases k with
    | any to_ k => cases h
    | done =>
      simp only [turnCall] at hcall
      split at hcall
      · cases hcall; cases h
      · next hgo =>
        cases hcall
        obtain ⟨halive, hhook⟩ : s.dev.progAlive = true ∧ u.hook ≠ -1 := by simpa using h
        have hempty : s.dev.io.out_ = [] := by
          simpa [IoData.hasOutput, halive, hhook] using hgo
        exact ⟨rfl, hempty, by simp [waitEnds, IoData.hasOutput, halive, hhook, hempty]⟩
  | _ => cases h

/-- A turn of a call. -/
theorem Inv.turn {regex : Regex} {l : Ledger} {u : Turn} {pc pc' : CallPc} {d : Dev}
    (h : Inv l) (hsc : l.sys.script = .running pc) (hwaits : Waits l (.script (.act (.turn u))))
    (hcall : turnCall regex l.sys.dev u pc = some (d, pc')) :
    Inv (l.after (.script (.act (.turn u))) ⟨d, .running pc', l.sys.io⟩) := by
  have hgrows := grows_of_moved (turnCall_effect hcall).moved
  rw [after_turn]
  refine ⟨Nat.le_trans h.call hgrows.length_le, fun hw p hp => ?_, ?_⟩
  · obtain rfl : pc' = .completing .done := ScriptPc.running.inj hw
    obtain ⟨rfl, rfl⟩ := turnCall_completing hcall
    exact h.pending hsc p hp
  · intro r hr p hp
    split at hr
    · next hreturns =>
      rcases List.mem_append.mp hr with hr | hr
      · exact h.sent r hr p hp
      · obtain rfl := List.mem_singleton.mp hr
        obtain ⟨hpc, hempty, hends⟩ := waitEnds_of_returns hcall hsc hreturns
        have hw : Waiting l.sys := by rw [Waiting, hsc, hpc]
        rcases h.pending hw p hp with hacked | hin | hfront
        · exact hacked
        · exact absurd ⟨hin.1, p, hp, hin.2⟩ (hwaits hw (.inl hends))
        · -- nothing of the call is in the queue
          have hhi := Nat.lt_of_lt_of_le hp.2 h.call
          rw [front, hempty, List.length_nil] at hfront
          omega
    · exact h.sent r hr p hp

/-- A step of the script thread. -/
theorem Inv.script_step {regex : Regex} {l : Ledger} {b : ScriptAct} {d : Dev} {pc : ScriptPc}
    {io : IoPc} (h : Inv l) (hwaits : Waits l (.script b))
    (hmove : ScriptMove regex l.sys.dev l.sys.io l.sys.script b d pc io) :
    Inv (l.after (.script b) ⟨d, pc, io⟩) := by
  obtain ⟨hgrows, -⟩ := grows_of_script hmove
  generalize hsc : l.sys.script = sc at hmove
  cases hmove with
  | call pc pc' a d' hcall =>
    cases a with
    | turn u => exact h.turn hsc hwaits hcall
    | call c tick =>
      rw [after_call]
      refine ⟨Nat.le_refl _, fun _ p hp => .inr (.inr ?_), h.sent⟩
      -- what the call queues is behind what was in the queue
      have hfront : front d ≤ l.sys.dev.log.queued.length := by
        rw [hgrows.front_eq]; exact Nat.sub_le _ _
      exact Nat.le_trans hfront hp.1
  | _ =>
    rw [after_script (by intro a ha; cases ha)]
    -- nobody waits after these
    exact h.grow hgrows (by intro hw; cases hw) fun hw => by rw [Waiting, hsc] at hw; cases hw

/-- Nothing has returned from a process that is gone. -/
theorem Inv.gone {l : Ledger} {a : Act} {u : Sys} (h : Inv (l.after a u)) :
    Inv (l.after a { u with script := .gone, io := .gone }) := by
  refine ⟨h.call, (by intro hw; cases hw), fun r hr p hp => h.sent r ?_ p hp⟩
  have hnone : returns l.sys a { u with script := .gone, io := .gone } = false := by
    simp [returns]
  simp only [Ledger.after, hnone] at hr ⊢
  split
  · exact List.mem_append_left _ hr
  · exact hr

/-- **One step** that waits for `sendTo`. -/
theorem step_inv {regex : Regex} {l l' : Ledger} {a : Act} (h : Inv l) (hwaits : Waits l a)
    (hstep : l.step regex a = some l') : Inv l' := by
  obtain ⟨t, ht, rfl⟩ := Option.map_eq_some_iff.mp hstep
  refine step_induct (Q := fun u => Inv (l.after a u)) (fun u hu => hu.gone) ?_ ?_ ht
  · intro b d pc hb hmove
    subst hb
    exact h.io_step hwaits hmove
  · intro b d pc io hb hmove
    subst hb
    exact h.script_step hwaits hmove

/-- **Completion means sent** along each run in which every wait outlasts the
`sendTo` of its bytes. -/
theorem allSent_of_waits (regex : Regex) (cred : CString) (proc : Option CString)
    (acts : List Act) (h : Meets (Ledger.step regex) Waits (Ledger.init cred proc) acts) :
    Along (Ledger.step regex) AllSent (Ledger.init cred proc) acts :=
  along_of_keeps (I := Inv) (fun _ hl => hl.sent)
    (fun _ _ _ hl hwaits hst => step_inv hl hwaits hst)
    ⟨Nat.le_refl 0, (by intro hw; cases hw), nofun⟩ h

/-! ## A return before `sendTo` -/

/-- `puts("c")` returns when the IO thread has emptied the queue. -/
def returnsEarly : List Act :=
  connect ++
  [.script (.act (.call (.puts charC) 0)), .io .step, .io .step, .io .step,
    .script (.act (.turn ⟨0, 0, 0⟩))]

/-- Nothing has been given to `sendTo`. -/
theorem returned_before_sendTo :
    ∃ l, run (Ledger.step fun _ => none) (Ledger.init ttyCred none) returnsEarly = some l ∧
      l.returned = [⟨0, 1⟩] ∧ l.acked = [] ∧ l.sys.dev.log.wire = [] ∧ ¬ AllSent l :=
  ⟨_, rfl, rfl, rfl, rfl, fun h => by
    obtain ⟨b, hb, -⟩ := h ⟨0, 1⟩ (List.mem_singleton_self _) 0 ⟨Nat.le_refl 0, Nat.zero_lt_one⟩
    cases hb⟩

/-- The same call, and a test of the queue after `sendTo`. -/
def returnsLate : List Act :=
  connect ++
  [.script (.act (.call (.puts charC) 0)), .io .step, .io .step, .io .step, .io .step,
    .io (.wrote 1), .io (.sent 0), .script (.act (.turn ⟨0, 0, 0⟩))]

instance (l : Ledger) (a : Act) : Decidable (Waits l a) :=
  inferInstanceAs (Decidable (_ → _ → _))

theorem allSent_of_waits_late :
    Along (Ledger.step fun _ => none) AllSent (Ledger.init ttyCred none) returnsLate :=
  allSent_of_waits (fun _ => none) ttyCred none returnsLate (by decide)

end Autocom.Sent
