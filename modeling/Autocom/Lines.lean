import Autocom.Device

/-! # `getlinecrlf` and `writeml`

A line reader over `std::istream` and the loop that sends each line as a
command. The stream is what is left of its buffer with the two state bits that
decide when the loop ends: the reader sets `eofbit` when it finds nothing, and
its next `sentry` sets `failbit`. -/
namespace Autocom.Lines
open Autocom

def LF : Byte := 0x0a
def CR : Byte := 0x0d

/-- `std::istream` over a string buffer. -/
structure IStream where
  rest : Bytes
  eofbit : Bool
  failbit : Bool
  deriving DecidableEq

namespace IStream

/-- `std::stringstream s(text)`. -/
def open_ (text : Bytes) : IStream := ⟨text, false, false⟩

def good (is : IStream) : Bool := ! is.eofbit && ! is.failbit

/-- `std::istream::sentry se(is, true)`: it skips no white space. -/
def sentry (is : IStream) : IStream := if is.good then is else { is with failbit := true }

end IStream

/-- The `for` loop: the line, what is left, and whether the end was reached. -/
def getline : Bytes → Bytes → Bytes × Bytes × Bool
  | t, [] => (t, [], true)
  | t, c :: rest =>
    if c = LF then (t, rest, false)
    else if c = CR then (t, if rest.head? = some LF then rest.tail else rest, false)
    else getline (t ++ [c]) rest

def getlinecrlf (is : IStream) : Bytes × IStream :=
  let is := is.sentry
  let (t, rest, eof) := getline [] is.rest
  (t, { is with rest := rest, eofbit := is.eofbit || (eof && decide (t = [])) })

inductive Command
  | sendkey (key : CString)
  | ctrl (key : Byte)
  | writeln (cmd : CString)
  deriving DecidableEq

/-- The body of the loop; `line[0]` of an empty string and `line[1]` of one
character are the terminator. -/
def command (line : Bytes) : Command :=
  if line.getD 0 0 = 0x25 then .sendkey (c_str line.tail)
  else if line.getD 0 0 = 0x5e then .ctrl (line.getD 1 0)
  else .writeln (c_str line)

/-! ## What one call of the reader does -/

def eol (c : Byte) : Bool := c == LF || c == CR

/-- The shapes of a text: its first line and what follows, or a piece without
terminator. -/
inductive FirstLine : Bytes → Bytes → Bytes → Bool → Prop
  | last {l : Bytes} (hl : ∀ c ∈ l, eol c = false) : FirstLine l l [] true
  | lf {l : Bytes} (rest : Bytes) (hl : ∀ c ∈ l, eol c = false) :
    FirstLine (l ++ LF :: rest) l rest false
  | crlf {l : Bytes} (rest : Bytes) (hl : ∀ c ∈ l, eol c = false) :
    FirstLine (l ++ CR :: LF :: rest) l rest false
  | cr {l rest : Bytes} (hl : ∀ c ∈ l, eol c = false) (hrest : rest.head? ≠ some LF) :
    FirstLine (l ++ CR :: rest) l rest false

theorem FirstLine.cons {c : Byte} {s l rest : Bytes} {eof : Bool} (hc : eol c = false)
    (h : FirstLine s l rest eof) : FirstLine (c :: s) (c :: l) rest eof := by
  have hcons : ∀ {l : Bytes}, (∀ b ∈ l, eol b = false) → ∀ b ∈ c :: l, eol b = false := by
    intro l hl b hb
    rcases List.mem_cons.mp hb with rfl | hb
    · exact hc
    · exact hl b hb
  cases h with
  | last hl => exact .last (hcons hl)
  | lf rest hl => exact .lf rest (hcons hl)
  | crlf rest hl => exact .crlf rest (hcons hl)
  | cr hl hrest => exact .cr (hcons hl) hrest

theorem getline_firstLine (t s : Bytes) : ∃ l rest eof, getline t s = (t ++ l, rest, eof) ∧
    FirstLine s l rest eof := by
  induction s generalizing t with
  | nil => exact ⟨[], [], true, by simp [getline], .last (by simp)⟩
  | cons c s ih =>
    by_cases hlf : c = LF
    · subst hlf
      exact ⟨[], s, false, by simp [getline], .lf (l := []) s (by simp)⟩
    · by_cases hcr : c = CR
      · subst hcr
        by_cases hnext : s.head? = some LF
        · obtain ⟨s', rfl⟩ : ∃ s', s = LF :: s' := by
            cases s with
            | nil => cases hnext
            | cons b s' => exact ⟨s', by rw [Option.some.inj hnext]⟩
          exact ⟨[], s', false, by simp [getline, hlf], .crlf (l := []) s' (by simp)⟩
        · exact ⟨[], s, false, by simp [getline, hlf, hnext], .cr (l := []) (by simp) hnext⟩
      · obtain ⟨l, rest, eof, hget, hfirst⟩ := ih (t ++ [c])
        refine ⟨c :: l, rest, eof, ?_, hfirst.cons (by simp [eol, hlf, hcr])⟩
        rw [getline, if_neg hlf, if_neg hcr, hget, List.append_assoc]
        rfl

theorem FirstLine.length_le {s l rest : Bytes} {eof : Bool} (h : FirstLine s l rest eof) :
    rest.length + l.length ≤ s.length ∧ (eof = false → rest.length < s.length) := by
  cases h with
  | last hl => simp
  | lf rest hl => simp; omega
  | crlf rest hl => simp; omega
  | cr hl hrest => simp; omega

theorem FirstLine.clean {s l rest : Bytes} {eof : Bool} (h : FirstLine s l rest eof) :
    ∀ c ∈ l, eol c = false := by
  cases h <;> assumption

theorem FirstLine.suffix {s l rest : Bytes} {eof : Bool} (h : FirstLine s l rest eof) :
    rest <:+ s := by
  cases h with
  | last hl => exact List.nil_suffix
  | @lf l rest hl => exact ⟨l ++ [LF], by simp⟩
  | @crlf l rest hl => exact ⟨l ++ [CR, LF], by simp⟩
  | @cr l rest hl hrest => exact ⟨l ++ [CR], by simp⟩

theorem FirstLine.rest_eq_nil {s l rest : Bytes} (h : FirstLine s l rest true) : rest = [] := by
  cases h
  rfl

/-- How many calls of the reader can still succeed. -/
def IStream.left (is : IStream) : Nat :=
  if is.failbit then 0 else if is.eofbit then 1 else is.rest.length + 2

/-- On a good stream the reader takes the first line; on any other it fails. -/
theorem getlinecrlf_open (s : Bytes) : ∃ l rest eof, FirstLine s l rest eof ∧
    getlinecrlf (.open_ s) = (l, ⟨rest, eof && decide (l = []), false⟩) := by
  obtain ⟨l, rest, eof, hget, hfirst⟩ := getline_firstLine [] s
  refine ⟨l, rest, eof, hfirst, ?_⟩
  rw [List.nil_append] at hget
  simp [getlinecrlf, IStream.open_, IStream.sentry, IStream.good, hget]

theorem getlinecrlf_bad {is : IStream} (h : is.good = false) :
    (getlinecrlf is).2.failbit = true := by
  simp [getlinecrlf, IStream.sentry, h]

theorem IStream.eq_open {is : IStream} (h : is.good = true) : is = .open_ is.rest := by
  obtain ⟨rest, eofbit, failbit⟩ := is
  simp only [good, Bool.and_eq_true, Bool.not_eq_true'] at h
  rw [h.1, h.2]
  rfl

theorem getlinecrlf_left {is : IStream} (h : (getlinecrlf is).2.failbit = false) :
    (getlinecrlf is).2.left < is.left := by
  by_cases hgood : is.good = true
  · obtain ⟨l, rest, eof, hfirst, hget⟩ := getlinecrlf_open is.rest
    obtain ⟨hlen, hlt⟩ := hfirst.length_le
    rw [IStream.eq_open hgood, hget]
    simp only [IStream.left, IStream.open_, Bool.false_eq_true, if_false]
    cases eof with
    | false => have := hlt rfl; simp; omega
    | true =>
      by_cases hl : l = []
      · simp [hl]
      · have := List.length_pos_iff.mpr hl
        simp [hl]; omega
  · rw [getlinecrlf_bad (Bool.eq_false_iff.mpr hgood)] at h
    cases h

/-- `while(getlinecrlf(s,line))`. -/
def writemlLoop (is : IStream) : List Command :=
  if _h : (getlinecrlf is).2.failbit = false then
    command (getlinecrlf is).1 :: writemlLoop (getlinecrlf is).2
  else []
termination_by is.left
decreasing_by exact getlinecrlf_left _h

/-- The commands that `writeml` issues, in order. -/
def writeml (mlines : CString) : List Command := writemlLoop (.open_ mlines.bytes)

/-! ## The lines of a text -/

/-- Lines end at LF, CR or CR LF; a last piece without terminator counts when it
is not empty. -/
inductive Splits : Bytes → List Bytes → Prop
  | nil : Splits [] []
  | piece {s rest : Bytes} (h : FirstLine s s rest true) (hs : s ≠ []) : Splits s [s]
  | line {s l rest : Bytes} {ls : List Bytes} (h : FirstLine s l rest false)
    (hrest : Splits rest ls) : Splits s (l :: ls)

/-- One command for each line of the text, in order, and none besides. -/
def IssuesLines (mlines : CString) : Prop :=
  ∃ ls, Splits mlines.bytes ls ∧ writeml mlines = ls.map command

theorem getline_append {l : Bytes} (hl : ∀ c ∈ l, eol c = false) (t s : Bytes) :
    getline t (l ++ s) = getline (t ++ l) s := by
  induction l generalizing t with
  | nil => simp
  | cons c l ih =>
    have hc : c ≠ LF ∧ c ≠ CR := by simpa [eol] using hl c (by simp)
    rw [List.cons_append, getline, if_neg hc.1, if_neg hc.2,
      ih (fun b hb => hl b (by simp [hb])), List.append_assoc]
    rfl

/-- The reader finds the first line, so there is only one. -/
theorem FirstLine.getline_eq {s l rest : Bytes} {eof : Bool} (h : FirstLine s l rest eof) :
    getline [] s = (l, rest, eof) := by
  cases h with
  | last hl =>
    have happ := getline_append hl [] []
    simpa [getline] using happ
  | lf rest hl => rw [getline_append hl]; simp [getline]
  | crlf rest hl => rw [getline_append hl]; simp [getline, LF, CR]
  | cr hl hrest =>
    rw [getline_append hl, getline, if_neg (by decide), if_pos rfl, if_neg hrest]
    rfl

theorem Splits.unique {s : Bytes} {ls ls' : List Bytes} (h : Splits s ls) (h' : Splits s ls') :
    ls = ls' := by
  induction h generalizing ls' with
  | nil =>
    cases h' with
    | nil => rfl
    | piece _ hs => exact absurd rfl hs
    | line h' _ => cases h'.getline_eq
  | piece h hs =>
    cases h' with
    | nil => exact absurd rfl hs
    | piece => rfl
    | line h' _ => cases h.getline_eq.symm.trans h'.getline_eq
  | line h _ ih =>
    cases h' with
    | nil => cases h.getline_eq
    | piece h' _ => cases h.getline_eq.symm.trans h'.getline_eq
    | line h' hrest' =>
      obtain ⟨rfl, hsame⟩ := Prod.mk.inj (h.getline_eq.symm.trans h'.getline_eq)
      obtain ⟨rfl, -⟩ := Prod.mk.inj hsame
      rw [ih hrest']

/-! ## The loop -/

theorem writemlLoop_open {s l rest : Bytes} {eof : Bool} (h : FirstLine s l rest eof) :
    writemlLoop (.open_ s) =
      command l :: writemlLoop ⟨rest, eof && decide (l = []), false⟩ := by
  obtain ⟨l', rest', eof', hfirst, hget⟩ := getlinecrlf_open s
  obtain ⟨rfl, hsame⟩ := Prod.mk.inj (h.getline_eq.symm.trans hfirst.getline_eq)
  obtain ⟨rfl, rfl⟩ := Prod.mk.inj hsame
  rw [writemlLoop, hget, dif_pos rfl]

theorem writemlLoop_eof (rest : Bytes) : writemlLoop ⟨rest, true, false⟩ = [] := by
  rw [writemlLoop, dif_neg]
  rw [getlinecrlf_bad rfl]
  exact Bool.noConfusion

/-- At the end of the text the reader succeeds once more, with an empty line. -/
theorem writemlLoop_nil : writemlLoop (.open_ []) = [command []] := by
  rw [writemlLoop_open (.last (l := []) (by simp))]
  exact congrArg _ (writemlLoop_eof [])

/-- **The loop**: the commands of the lines, and then one of an empty line. -/
theorem writemlLoop_eq (s : Bytes) :
    ∃ ls, Splits s ls ∧ writemlLoop (.open_ s) = ls.map command ++ [command []] := by
  induction hn : s.length using Nat.strong_induction_on generalizing s with
  | h n ih =>
    obtain ⟨l, rest, eof, hget, hfirst⟩ := getline_firstLine [] s
    cases eof with
    | false =>
      obtain ⟨ls, hsplits, hloop⟩ := ih rest.length (hn ▸ hfirst.length_le.2 rfl) rest rfl
      refine ⟨l :: ls, .line hfirst hsplits, ?_⟩
      rw [writemlLoop_open hfirst]
      exact congrArg _ hloop
    | true =>
      cases hfirst with
      | last hl =>
        by_cases hs : s = []
        · subst hs
          exact ⟨[], .nil, writemlLoop_nil⟩
        · refine ⟨[s], .piece (.last hl) hs, ?_⟩
          rw [writemlLoop_open (.last hl), decide_eq_false hs]
          exact congrArg _ writemlLoop_nil

/-! ## On the device -/

/-- The call of the `Device` that a command is; `val` is a local of `toBinary`. -/
def Command.call (val : BitVec 32) : Command → Call
  | .sendkey key => .sendkey val key
  | .ctrl key => .ctrl key
  | .writeln cmd => .writeln cmd

/-- What it queues. -/
def Command.output (val : BitVec 32) (eol : Bytes) (c : Command) : Bytes :=
  ((c.call val).output eol).getD []

theorem Command.startCall_queue (c : Command) (val : BitVec 32) (d : Dev) (tick : Int) :
    startCall d tick (c.call val) = (d.queue (c.output val d.eol), .completing .done) := by
  cases c <;> rfl

/-- After the output of the lines the device sees one more line ending. -/
theorem writeml_output (mlines : CString) (val : BitVec 32) (eol : Bytes) :
    ∃ ls, Splits mlines.bytes ls ∧ (writeml mlines).flatMap (Command.output val eol) =
      ls.flatMap (fun line => (command line).output val eol) ++ eol := by
  obtain ⟨ls, hsplits, hloop⟩ := writemlLoop_eq mlines.bytes
  refine ⟨ls, hsplits, ?_⟩
  rw [writeml, hloop, List.flatMap_append, List.flatMap_map]
  have hempty : (command []).output val eol = eol := rfl
  simp [hempty]

/-- **`writeml` sends an empty line after every text.** -/
theorem writeml_never_issues (mlines : CString) : ¬ IssuesLines mlines := by
  intro ⟨ls, hsplits, hissues⟩
  obtain ⟨ls', hsplits', hloop⟩ := writemlLoop_eq mlines.bytes
  rw [writeml, hloop, hsplits'.unique hsplits] at hissues
  have hlen := congrArg List.length hissues
  simp at hlen

def textA : CString := ⟨[0x41, 0x0a], by decide⟩

/-- The text `A` with its LF is one line, and `writeml` issues two commands. -/
theorem writeml_extra_line : Splits textA.bytes [[0x41]] ∧
    writeml textA = [.writeln ⟨[0x41], by decide⟩, .writeln ⟨[], by decide⟩] ∧
    ¬ IssuesLines textA := by
  have hfirst : FirstLine textA.bytes [0x41] [] false := .lf (l := [0x41]) [] (by decide)
  have hsplits : Splits textA.bytes [[0x41]] := .line hfirst .nil
  have hwriteml : writeml textA = [.writeln ⟨[0x41], by decide⟩, .writeln ⟨[], by decide⟩] := by
    rw [writeml, writemlLoop_open hfirst]
    exact congrArg _ writemlLoop_nil
  refine ⟨hsplits, hwriteml, fun ⟨ls, hls, hissues⟩ => ?_⟩
  rw [hwriteml, ← hsplits.unique hls] at hissues
  exact absurd hissues (by decide)

end Autocom.Lines
