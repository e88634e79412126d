import Autocom.Lines
import Mathlib.Logic.Function.Iterate

/-! # Reading a text line by line

A caller of `getlinecrlf` that stops at an empty line with `eofbit`. The lines
it has by then are compared with a split of the whole text that knows nothing of
streams: CR LF and CR become LF, the text is split at LF, and an empty last piece
is no line. -/
namespace Autocom.LineReads
open Autocom Lines

/-! ## The reference split -/

/-- Every terminator as one LF. -/
def normalise : Bytes → Bytes
  | [] => []
  | [c] => [if c = CR then LF else c]
  | c :: d :: rest =>
    if c = CR ∧ d = LF then LF :: normalise rest
    else (if c = CR then LF else c) :: normalise (d :: rest)

def splitLines (text : Bytes) : List Bytes :=
  let pieces := (normalise text).splitOn LF
  if pieces.getLast? = some [] then pieces.dropLast else pieces

/-! ## The calls -/

/-- What the stream is before the call number `n`, counted from 0. -/
def stream (text : Bytes) (n : Nat) : IStream := (fun is => (getlinecrlf is).2)^[n] (.open_ text)

def line (text : Bytes) (n : Nat) : Bytes := (getlinecrlf (stream text n)).1

/-- The call returns an empty line, and the stream then has `eofbit`. -/
def ends (text : Bytes) (n : Nat) : Bool :=
  decide (line text n = []) && (stream text (n + 1)).eofbit

/-- The bytes by which the call moves the stream on. -/
def taken (text : Bytes) (n : Nat) : Bytes :=
  let before := (stream text n).rest
  before.take (before.length - (stream text (n + 1)).rest.length)

/-- The call number `n` is the first that ends, and what the calls did till then. -/
structure ReadsLines (text : Bytes) (n : Nat) : Prop where
  ends : ends text n = true
  first : ∀ m < n, LineReads.ends text m = false
  lines : (List.range n).map (line text) = splitLines text
  clean : ∀ m < n, ∀ c ∈ line text m, c ≠ CR ∧ c ≠ LF
  moves : ∀ m ≤ n, (stream text m).rest = taken text m ++ (stream text (m + 1)).rest
  once : (List.range (n + 1)).flatMap (taken text) = text
  calls : n + 1 ≤ text.length + 1

/-! ## One line of the split -/

theorem normalise_cons {c : Byte} (hc : eol c = false) (s : Bytes) :
    normalise (c :: s) = c :: normalise s := by
  have hcr : c ≠ CR := by simp_all [eol]
  cases s <;> simp [normalise, hcr]

theorem normalise_append {l : Bytes} (hl : ∀ c ∈ l, eol c = false) (s : Bytes) :
    normalise (l ++ s) = l ++ normalise s := by
  induction l with
  | nil => rfl
  | cons c l ih =>
    rw [List.cons_append, normalise_cons (hl c (by simp)), ih fun b hb => hl b (by simp [hb])]
    rfl

theorem normalise_lf (s : Bytes) : normalise (LF :: s) = LF :: normalise s := by
  have hne : LF ≠ CR := by decide
  cases s <;> simp [normalise, hne]

theorem normalise_crlf (s : Bytes) : normalise (CR :: LF :: s) = LF :: normalise s := by
  simp [normalise]

theorem normalise_cr {s : Bytes} (h : s.head? ≠ some LF) :
    normalise (CR :: s) = LF :: normalise s := by
  cases s with
  | nil => rfl
  | cons c s =>
    have hc : c ≠ LF := fun heq => h (by rw [heq, List.head?_cons])
    simp [normalise, hc]

theorem not_mem_of_clean {l : Bytes} (hl : ∀ c ∈ l, eol c = false) : LF ∉ l := by
  intro hmem
  exact absurd (hl LF hmem) (by decide)

/-- A line that is over leaves the lines of the rest. -/
theorem splitLines_terminated {s l rest : Bytes} (hl : LF ∉ l)
    (h : normalise s = l ++ LF :: normalise rest) : splitLines s = l :: splitLines rest := by
  have hne : (normalise rest).splitOn LF ≠ [] := List.splitOn_ne_nil _ _
  have hlast : (l :: (normalise rest).splitOn LF).getLast? =
      ((normalise rest).splitOn LF).getLast? := by
    rw [List.getLast?_cons, List.getLast?_eq_some_getLast hne]; rfl
  unfold splitLines
  simp only [h, List.splitOn_append_cons_self_of_not_mem hl, hlast]
  split
  · exact List.dropLast_cons_of_ne_nil hne
  · rfl

@[simp] theorem splitLines_nil : splitLines [] = [] := by
  simp [splitLines, normalise]

/-- **The split takes lines off the front**, as the reader does. -/
theorem splitLines_firstLine {s l rest : Bytes} {eof : Bool} (h : FirstLine s l rest eof)
    (hs : s ≠ []) : splitLines s = l :: splitLines rest := by
  cases h with
  | last hl =>
    have hnorm : normalise s = s := by
      have happ := normalise_append hl []
      simpa [normalise] using happ
    simp [splitLines, hnorm, List.splitOn_eq_singleton (not_mem_of_clean hl), hs, normalise]
  | lf rest hl =>
    refine splitLines_terminated (not_mem_of_clean hl) ?_
    rw [normalise_append hl, normalise_lf]
  | crlf rest hl =>
    refine splitLines_terminated (not_mem_of_clean hl) ?_
    rw [normalise_append hl, normalise_crlf]
  | cr hl hrest =>
    refine splitLines_terminated (not_mem_of_clean hl) ?_
    rw [normalise_append hl, normalise_cr hrest]

/-- The reference split is the one that the lines of `writeml` are taken from. -/
theorem splits_splitLines (s : Bytes) : Splits s (splitLines s) := by
  obtain ⟨ls, hsplits, -⟩ := writemlLoop_eq s
  suffices h : splitLines s = ls by rwa [h]
  induction hsplits with
  | nil => exact splitLines_nil
  | piece h hs => rw [splitLines_firstLine h hs, h.rest_eq_nil, splitLines_nil]
  | line h _ ih =>
    have hs := List.ne_nil_of_length_pos (Nat.zero_lt_of_lt (h.length_le.2 rfl))
    rw [splitLines_firstLine h hs, ih]

/-! ## One call -/

/-- From a stream that is not empty a call takes the first line and leaves a
good stream with less in it. -/
theorem getlinecrlf_cons {s : Bytes} (hs : s ≠ []) : ∃ l rest eof, FirstLine s l rest eof ∧
    getlinecrlf (.open_ s) = (l, .open_ rest) ∧ rest.length < s.length := by
  obtain ⟨l, rest, eof, hfirst, hget⟩ := getlinecrlf_open s
  cases eof with
  | false => exact ⟨l, rest, false, hfirst, by rw [hget]; rfl, hfirst.length_le.2 rfl⟩
  | true =>
    cases hfirst with
    | last hl =>
      refine ⟨s, [], true, .last hl, ?_, List.length_pos_iff.mpr hs⟩
      rw [hget]
      simp [IStream.open_, hs]

/-- After the first call the others read the rest. -/
theorem stream_succ {s l rest : Bytes} (h : getlinecrlf (.open_ s) = (l, .open_ rest)) (n : Nat) :
    stream s (n + 1) = stream rest n := by
  rw [stream, Function.iterate_succ_apply, h]
  rfl

/-! ## All calls -/

/-- Nothing is left: the next call ends. -/
theorem readsLines_nil : ReadsLines [] 0 where
  ends := rfl
  first := by simp
  lines := by simp
  clean := by simp
  moves := by intro m hm; obtain rfl := Nat.le_zero.mp hm; rfl
  once := rfl
  calls := le_rfl

/-- **One call more.** What the calls do on the rest, and the first line before
it. -/
theorem ReadsLines.cons {s l rest : Bytes} {eof : Bool} {n : Nat} (hs : s ≠ [])
    (hfirst : FirstLine s l rest eof) (hget : getlinecrlf (.open_ s) = (l, .open_ rest))
    (hlen : rest.length < s.length) (h : ReadsLines rest n) : ReadsLines s (n + 1) := by
  have hstream := stream_succ hget
  have hline : ∀ m, line s (m + 1) = line rest m := fun m => by rw [line, line, hstream]
  have hzero : line s 0 = l := by rw [line]; exact congrArg Prod.fst hget
  have hends : ∀ m, LineReads.ends s (m + 1) = LineReads.ends rest m := fun m => by
    rw [LineReads.ends, LineReads.ends, hline, hstream]
  have htaken : ∀ m, taken s (m + 1) = taken rest m := fun m => by
    rw [taken, taken, hstream, hstream]
  -- the first call moves the stream from the text to the rest
  have hmoved : s = taken s 0 ++ rest := by
    have hrest : (stream s 1).rest = rest := by rw [hstream]; rfl
    obtain ⟨t, rfl⟩ := hfirst.suffix
    have ht : taken (t ++ rest) 0 = t := by
      rw [taken, hrest]
      simp [stream, IStream.open_]
    rw [ht]
  refine ⟨?_, ?_, ?_, ?_, ?_, ?_, ?_⟩
  · rw [hends]; exact h.ends
  · intro m hm
    cases m with
    | zero => rw [LineReads.ends, hstream]; simp [stream, IStream.open_]
    | succ m => rw [hends]; exact h.first m (by omega)
  · rw [List.range_succ_eq_map, List.map_cons, List.map_map, hzero,
      splitLines_firstLine hfirst hs, ← h.lines]
    simp only [Function.comp_def, hline]
  · intro m hm c hc
    cases m with
    | zero =>
      rw [hzero] at hc
      have heol := hfirst.clean c hc
      simp [eol] at heol
      exact ⟨heol.2, heol.1⟩
    | succ m => exact h.clean m (by omega) c (hline m ▸ hc)
  · intro m hm
    cases m with
    | zero => rw [hstream]; exact hmoved
    | succ m => rw [hstream, hstream, htaken]; exact h.moves m (by omega)
  · rw [List.range_succ_eq_map, List.flatMap_cons, List.flatMap_map]
    simp only [htaken]
    rw [h.once, ← hmoved]
  · have := h.calls
    omega

/-- **Line by line a text is read as the reference split says.** -/
theorem readsLines (text : Bytes) : ∃ n, ReadsLines text n := by
  induction hn : text.length using Nat.strong_induction_on generalizing text with
  | h k ih =>
    by_cases hs : text = []
    · subst hs
      exact ⟨0, readsLines_nil⟩
    · obtain ⟨l, rest, eof, hfirst, hget, hlen⟩ := getlinecrlf_cons hs
      obtain ⟨n, h⟩ := ih rest.length (hn ▸ hlen) rest rfl
      exact ⟨n + 1, h.cons hs hfirst hget hlen⟩

/-- LF CR ends two lines, CR LF one, and the last piece has no terminator. -/
example : splitLines [0x41, LF, CR, 0x42, CR, LF, 0x43] = [[0x41], [], [0x42], [0x43]] := by
  decide

end Autocom.LineReads
