import Autocom.ExpectScan

/-! # Regular expressions and the trimmed accumulator

A match of a regular expression may be longer than the tail that a cut keeps,
which is as long as the pattern. The call finds a match exactly when it starts
no further back from any cut than that; where the cuts fall is told by the
lengths of the chunks. -/
namespace Autocom.ExpectRegex
open Autocom Autocom.Expect Autocom.ExpectWindow Autocom.ExpectScan Autocom.Lib.Scan
open Autocom.Lib.Window

/-! ## Matches and cuts, by their place in the text -/

/-- Some substring is in the language. -/
def Contains (Matches : Bytes → Prop) (text : Bytes) : Prop := ∃ u, u <:+: text ∧ Matches u

theorem Contains.mono {Matches : Bytes → Prop} {a b : Bytes} (hab : a <:+: b)
    (h : Contains Matches a) : Contains Matches b := by
  obtain ⟨u, hu, hm⟩ := h
  exact ⟨u, hu.trans hab, hm⟩

/-- A match begins at the place `a`. -/
def MatchAt (Matches : Bytes → Prop) (text : Bytes) (a : Nat) : Prop :=
  ∃ u, u <+: text.drop a ∧ Matches u

theorem contains_drop_iff {Matches : Bytes → Prop} {text : Bytes} {a₀ : Nat} :
    Contains Matches (text.drop a₀) ↔ ∃ a, a₀ ≤ a ∧ MatchAt Matches text a := by
  constructor
  · rintro ⟨u, hu, hm⟩
    obtain ⟨t, hut, ht⟩ := List.infix_iff_prefix_suffix.mp hu
    obtain ⟨k, rfl⟩ : ∃ k, t = (text.drop a₀).drop k := ⟨_, List.suffix_iff_eq_drop.mp ht⟩
    rw [List.drop_drop] at hut
    exact ⟨a₀ + k, Nat.le_add_right _ _, u, hut, hm⟩
  · rintro ⟨a, ha, u, hu, hm⟩
    obtain ⟨k, rfl⟩ := Nat.exists_eq_add_of_le ha
    rw [← List.drop_drop] at hu
    exact ⟨u, List.infix_iff_prefix_suffix.mpr ⟨_, hu, List.drop_suffix _ _⟩, hm⟩

/-- The places at which a cut falls when chunks of these lengths follow a text of
`total` bytes that is kept from `start` on: each chunk end more than `TRIMEXPECT`
bytes after the place from which the text is kept, which from then on is `n` bytes
before that end. -/
def cutEnds (n : Nat) : Nat → Nat → List Nat → List Nat
  | _, _, [] => []
  | start, total, len :: lens =>
    if 0 < len ∧ total + len - start > TRIMEXPECT then
      (total + len) :: cutEnds n (total + len - n) (total + len) lens
    else cutEnds n start (total + len) lens

/-- The cuts of a call with a pattern of `n` bytes. -/
def cuts (n : Nat) (live : List Poll) : List Nat :=
  cutEnds n 0 0 ((live.map Poll.chunk).map List.length)

/-- A cut falls within the text, and more than `TRIMEXPECT` bytes into it. -/
theorem cutEnds_bounds {n start total e : Nat} {bufs : List Bytes}
    (h : e ∈ cutEnds n start total (bufs.map List.length)) :
    TRIMEXPECT < e ∧ e ≤ total + bufs.flatten.length := by
  induction bufs generalizing start total with
  | nil => cases h
  | cons buf bufs ih =>
    rw [List.flatten_cons, List.length_append, ← Nat.add_assoc]
    simp only [List.map_cons, cutEnds] at h
    split at h
    · next hcut =>
      rcases List.mem_cons.mp h with rfl | h
      · exact ⟨by omega, Nat.le_add_right _ _⟩
      · exact ih h
    · exact ih h

/-- **What is held is the text from `n` bytes before the last cut on**, unless a cut
falls on fewer than `n` bytes. -/
theorem held_places {n : Nat} (bufs : List Bytes) (text : Bytes) (start : Nat)
    (hstart : start ≤ text.length) (hkept : start = 0 ∨ n + start ≤ text.length) :
    ((∀ e ∈ cutEnds n start text.length (bufs.map List.length), n ≤ e) ∧
      ∃ a₀, held n (text.drop start) bufs = some ((text ++ bufs.flatten).drop a₀) ∧
        a₀ ≤ (text ++ bufs.flatten).length ∧
        ∀ a, a₀ ≤ a ↔ start ≤ a ∧
          ∀ e ∈ cutEnds n start text.length (bufs.map List.length), e ≤ a + n) ∨
    (held n (text.drop start) bufs = none ∧
      ∃ e ∈ cutEnds n start text.length (bufs.map List.length), e < n) := by
  induction bufs generalizing text start with
  | nil =>
    left
    exact ⟨nofun, start, by rw [List.flatten_nil, List.append_nil]; rfl, by simpa using hstart,
      fun a => ⟨fun ha => ⟨ha, nofun⟩, And.left⟩⟩
  | cons buf bufs ih =>
    by_cases hempty : buf = []
    · subst hempty
      exact ih text start hstart hkept
    · have hpos : 0 < buf.length := List.length_pos_of_ne_nil hempty
      have haccum : text.drop start ++ buf = (text ++ buf).drop start :=
        (List.drop_append_of_le_length hstart).symm
      have hlen : (text ++ buf).length = text.length + buf.length := List.length_append
      have hdropped : ((text ++ buf).drop start).length = text.length + buf.length - start := by
        rw [List.length_drop, hlen]
      have hflat : text ++ (buf :: bufs).flatten = (text ++ buf) ++ bufs.flatten := by simp
      rw [held_cons bufs hempty, haccum, hflat]
      simp only [List.map_cons, cutEnds, hpos, true_and]
      unfold trim
      rw [hdropped]
      by_cases hover : text.length + buf.length - start > TRIMEXPECT
      · rw [if_pos hover, if_pos hover]
        by_cases hlong : n ≤ text.length + buf.length - start
        · -- the cut keeps `n` bytes
          have hcut : ((text ++ buf).drop start).drop (text.length + buf.length - start - n) =
              (text ++ buf).drop (text.length + buf.length - n) := by
            rw [List.drop_drop]
            congr 1
            omega
          rw [if_pos hlong, Option.bind_some, hcut]
          have hrest := ih (text ++ buf) (text.length + buf.length - n)
            (by omega) (by omega)
          rw [hlen] at hrest
          rcases hrest with ⟨hends, a₀, hheld, hle, ha₀⟩ | ⟨hnone, e, he, hshort⟩
          · left
            refine ⟨fun e he => ?_, a₀, hheld, hle, fun a => ?_⟩
            · rcases List.mem_cons.mp he with rfl | he
              · omega
              · exact hends e he
            · rw [ha₀ a, List.forall_mem_cons]
              constructor
              · exact fun h => ⟨by omega, by omega, h.2⟩
              · exact fun h => ⟨by omega, h.2.2⟩
          · exact .inr ⟨hnone, e, List.mem_cons_of_mem _ he, hshort⟩
        · -- the cut asks for more than there is, which only the first one can
          right
          rw [if_neg hlong]
          exact ⟨rfl, _, List.mem_cons_self, by omega⟩
      · rw [if_neg hover, if_neg hover, Option.bind_some]
        have hrest := ih (text ++ buf) start (by omega) (by omega)
        rw [hlen] at hrest
        exact hrest

theorem held_isSome_iff {n : Nat} (live : List Poll) :
    (held n [] (live.map Poll.chunk)).isSome = true ↔ ∀ e ∈ cuts n live, n ≤ e := by
  rcases held_places (n := n) (live.map Poll.chunk) [] 0 le_rfl (.inl rfl) with
    ⟨hends, a₀, hheld, -⟩ | ⟨hnone, e, he, hshort⟩
  · exact iff_of_true (by rw [List.drop_nil] at hheld; rw [hheld]; rfl) hends
  · refine iff_of_false (by rw [List.drop_nil] at hnone; rw [hnone]; exact Bool.false_ne_true) ?_
    exact fun h => absurd (h e he) (by omega)

/-- A match in what is held and the next chunk is one in the text that begins no more
than `n` bytes before any cut. -/
theorem held_contains_iff {Matches : Bytes → Prop} {n : Nat} (live : List Poll) (c : Bytes) :
    (∃ accum, held n [] (live.map Poll.chunk) = some accum ∧ Contains Matches (accum ++ c)) ↔
      (∀ e ∈ cuts n live, n ≤ e) ∧
        ∃ a, MatchAt Matches ((live.map Poll.chunk).flatten ++ c) a ∧
          ∀ e ∈ cuts n live, e ≤ a + n := by
  rcases held_places (n := n) (live.map Poll.chunk) [] 0 le_rfl (.inl rfl) with
    ⟨hends, a₀, hheld, hle, ha₀⟩ | ⟨hnone, e, he, hshort⟩
  · rw [List.drop_nil, List.nil_append] at hheld
    rw [List.nil_append] at hle
    rw [hheld]
    simp only [Option.some.injEq, exists_eq_left', ← List.drop_append_of_le_length hle,
      contains_drop_iff]
    constructor
    · rintro ⟨a, ha, hmatch⟩
      exact ⟨hends, a, hmatch, ((ha₀ a).mp ha).2⟩
    · rintro ⟨-, a, hmatch, hcuts⟩
      exact ⟨a, (ha₀ a).mpr ⟨Nat.zero_le a, hcuts⟩, hmatch⟩
  · rw [List.drop_nil] at hnone
    rw [hnone]
    refine iff_of_false nofun fun h => ?_
    have hlong : n ≤ e := h.1 e he
    omega

/-! ## When no match is cut -/

/-- At the first poll whose text has a match, that poll finds input, and some match
begins at most `n` bytes before every cut so far; no cut falls on fewer than `n`
bytes. -/
structure Uncut (Matches : Bytes → Prop) (n : Nat) (live : List Poll) : Prop where
  hit : ∀ k p, live[k]? = some p → Contains Matches (textAt live (k + 1)) →
    (∀ j < k, ¬ Contains Matches (textAt live (j + 1))) →
    p.chunk ≠ [] ∧ (∀ e ∈ cuts n (live.take k), n ≤ e) ∧
      ∃ a, MatchAt Matches (textAt live (k + 1)) a ∧ ∀ e ∈ cuts n (live.take k), e ≤ a + n
  miss : (∀ k < live.length, ¬ Contains Matches (textAt live (k + 1))) →
    ∀ e ∈ cuts n live, n ≤ e

/-- Matches that are no longer than the tail are never cut. -/
theorem uncut_of_short {Matches : Bytes → Prop} {n : Nat} (hn : n ≤ TRIMEXPECT)
    (hshort : ∀ u, Matches u → u ≠ [] ∧ u.length ≤ n) (live : List Poll) :
    Uncut Matches n live := by
  have hlong : ∀ polls : List Poll, ∀ e ∈ cuts n polls, n ≤ e := fun polls e he =>
    hn.trans (cutEnds_bounds he).1.le
  refine ⟨fun k p hp hin hbefore => ?_, fun _ => hlong live⟩
  have hnot : ∀ u, Matches u → ¬ u <:+: textAt live k := by
    intro u hm
    cases k with
    | zero => exact fun h => (hshort u hm).1 (List.infix_nil.mp h)
    | succ k => exact fun h => hbefore k (Nat.lt_succ_self k) ⟨u, h, hm⟩
  rw [← List.drop_zero (l := textAt live (k + 1)), contains_drop_iff] at hin
  obtain ⟨a, -, u, hu, hm⟩ := hin
  rw [textAt_succ hp] at hu
  -- the match ends in the chunk of this poll
  have hends : (textAt live k).length < a + u.length := by
    by_contra hle
    have hbound : a + u.length ≤ (textAt live k).length := by omega
    rw [List.drop_append_of_le_length (by omega)] at hu
    have hprefix := List.prefix_of_prefix_length_le hu (List.prefix_append _ _)
      (by rw [List.length_drop]; omega)
    exact hnot u hm (List.infix_iff_prefix_suffix.mpr ⟨_, hprefix, List.drop_suffix _ _⟩)
  refine ⟨fun hempty => ?_, hlong _, a, ⟨u, by rwa [textAt_succ hp], hm⟩, fun e he => ?_⟩
  · rw [hempty, List.append_nil] at hu
    exact hnot u hm (List.infix_iff_prefix_suffix.mpr ⟨_, hu, List.drop_suffix _ _⟩)
  · have hwithin := (cutEnds_bounds he).2
    rw [Nat.zero_add] at hwithin
    have htext : (textAt live k).length = ((live.take k).map Poll.chunk).flatten.length := rfl
    have hle := (hshort u hm).2
    omega

section
variable {regex : Regex} {e : Bytes} {search : Bytes → Bool} {Matches : Bytes → Prop}
  {expr : CString}

theorem matchExpr_regex (hregex : regex e = some search)
    (hsearch : ∀ text, search text = true ↔ Contains Matches text)
    (hexpr : expr.bytes = 0x3f :: e) (a : Bytes) :
    matchExpr regex expr a = some (search a) ∧
      (matchExpr regex expr a = some true ↔ Contains Matches a) := by
  have hmatch : matchExpr regex expr a = some (search a) := by simp [matchExpr, hexpr, hregex]
  refine ⟨hmatch, ?_⟩
  rw [hmatch, Option.some.injEq]
  exact hsearch a

/-- What the scanner sees of a valid expression. -/
theorem seenAt_regex (hregex : regex e = some search)
    (hsearch : ∀ text, search text = true ↔ Contains Matches text)
    (hexpr : expr.bytes = 0x3f :: e) {live : List Poll}
    (h0 : ∀ c ∈ live.map Poll.chunk, 0 ∉ c) (k : Nat) :
    (strwaittScanner regex expr).SeenAt [] (live.map Poll.chunk) k ↔
      ∃ p, live[k]? = some p ∧ p.chunk ≠ [] ∧
        (∀ e' ∈ cuts (e.length + 1) (live.take k), e.length + 1 ≤ e') ∧
        ∃ a, MatchAt Matches (textAt live (k + 1)) a ∧
          ∀ e' ∈ cuts (e.length + 1) (live.take k), e' ≤ a + (e.length + 1) := by
  have hvalid := matchExpr_regex hregex hsearch hexpr
  have hlen : expr.bytes.length = e.length + 1 := by rw [hexpr]; rfl
  have hmatch := fun a => (hvalid a).2
  rw [seenAt_iff h0, kept_held (fun a => ⟨_, (hvalid a).1⟩) (text_take h0 k), hlen]
  simp only [hmatch]
  constructor
  · rintro ⟨accum, p, hheld, hp, hne, hin⟩
    obtain ⟨hlong, a, ha, hcuts⟩ := (held_contains_iff (live.take k) p.chunk).mp ⟨accum, hheld, hin⟩
    exact ⟨p, hp, hne, hlong, a, by rw [textAt_succ hp]; exact ha, hcuts⟩
  · rintro ⟨p, hp, hne, hlong, a, ha, hcuts⟩
    rw [textAt_succ hp] at ha
    obtain ⟨accum, hheld, hin⟩ :=
      (held_contains_iff (live.take k) p.chunk).mpr ⟨hlong, a, ha, hcuts⟩
    exact ⟨accum, p, hheld, hp, hne, hin⟩

/-- **When trimming does not change the answer of a search.** -/
theorem strwaitt_regex_iff (hregex : regex e = some search)
    (hsearch : ∀ text, search text = true ↔ Contains Matches text)
    (hexpr : expr.bytes = 0x3f :: e) (d : Dev) (to_ start : Int) {polls : List Poll}
    (hq : Quiet polls) :
    FirstMatch (Contains Matches) (livePolls to_ start polls)
        (decide ((livePolls to_ start polls).length < polls.length))
        (strwaittOn regex d expr to_ start polls) ↔
      Uncut Matches (e.length + 1) (livePolls to_ start polls) := by
  have h0 := Quiet.live hq to_ start
  have hvalid := matchExpr_regex hregex hsearch hexpr
  have hlen : expr.bytes.length = e.length + 1 := by rw [hexpr]; rfl
  have hmatch : ∀ a, matchExpr regex expr a = some true → Contains Matches a :=
    fun a => (hvalid a).2.mp
  have hmono : ∀ a b : Bytes, a <:+: b → Contains Matches a → Contains Matches b :=
    fun _ _ hab => Contains.mono hab
  rw [strwaittOn_firstMatch_iff d to_ start hq hmatch hmono,
    Scanner.scan_right_iff fun k hk => (seenAt_text hmatch hmono h0 hk).1, List.length_map,
    kept_held (fun a => ⟨_, (hvalid a).1⟩) h0, hlen, held_isSome_iff]
  simp only [seenAt_regex hregex hsearch hexpr h0]
  constructor
  · rintro ⟨hhit, hmiss⟩
    refine ⟨fun k p hp hin hbefore => ?_, hmiss⟩
    have hk : k < (livePolls to_ start polls).length := (List.getElem?_eq_some_iff.mp hp).1
    obtain ⟨p', hp', hseen⟩ := hhit k hk hin hbefore
    rw [hp] at hp'
    cases hp'
    exact hseen
  · intro h
    refine ⟨fun k hk hin hbefore => ?_, h.miss⟩
    have hp := List.getElem?_eq_getElem hk
    exact ⟨_, hp, h.hit k _ hp hin hbefore⟩

end

/-! The expression `10*2`, which matches texts of any length. -/

def zerosExpr : Bytes := [0x31, 0x30, 0x2a, 0x32]

inductive Zeros : Bytes → Prop
  | run (n : Nat) : Zeros (0x31 :: (List.replicate n 0x30 ++ [0x32]))

/-- A match starts here. -/
def zerosHere : Bytes → Bool
  | [] => false
  | c :: cs => c == 0x31 && (cs.dropWhile (· == 0x30)).head? == some 0x32

def zerosSearch (text : Bytes) : Bool := text.tails.any zerosHere

def zerosRegex : Regex := fun e => if e = zerosExpr then some zerosSearch else none

theorem zerosHere_iff (t : Bytes) : zerosHere t = true ↔ ∃ u, u <+: t ∧ Zeros u := by
  cases t with
  | nil =>
    refine ⟨fun h => (Bool.false_ne_true h).elim, ?_⟩
    rintro ⟨u, hu, ⟨n⟩⟩
    simp at hu
  | cons c cs =>
    simp only [zerosHere, Bool.and_eq_true, beq_iff_eq]
    constructor
    · rintro ⟨rfl, hhead⟩
      have hsplit : cs = List.replicate (cs.takeWhile (· == 0x30)).length 0x30 ++
          cs.dropWhile (· == 0x30) := by
        conv => lhs; rw [← List.takeWhile_append_dropWhile (p := (· == (0x30 : Byte))) (l := cs)]
        congr 1
        exact List.eq_replicate_of_mem fun b hb => by simpa using List.mem_takeWhile_imp hb
      obtain ⟨rest, hrest⟩ := List.head?_eq_some_iff.mp hhead
      refine ⟨_, ?_, .run (cs.takeWhile (· == 0x30)).length⟩
      refine List.cons_prefix_cons.mpr ⟨rfl, rest, ?_⟩
      rw [List.append_assoc, List.singleton_append, ← hrest, ← hsplit]
    · rintro ⟨u, hu, ⟨n⟩⟩
      obtain ⟨rfl, rest, rfl⟩ := List.cons_prefix_cons.mp hu
      refine ⟨rfl, ?_⟩
      rw [List.append_assoc, List.dropWhile_append_of_pos (by simp)]
      rfl

theorem zerosSearch_iff (text : Bytes) : zerosSearch text = true ↔ Contains Zeros text := by
  simp only [zerosSearch, List.any_eq_true, List.mem_tails, zerosHere_iff, Contains,
    List.infix_iff_prefix_suffix]
  constructor
  · rintro ⟨t, ht, u, hu, hz⟩
    exact ⟨u, ⟨t, hu, ht⟩, hz⟩
  · rintro ⟨u, ⟨t, hu, ht⟩, hz⟩
    exact ⟨t, ht, u, hu, hz⟩

/-- `?10*2`. -/
def zerosPattern : CString := ⟨0x3f :: zerosExpr, by decide⟩

/-- The match arrives in two parts, and the first is longer than `TRIMEXPECT`. -/
def zerosPolls : List Poll :=
  [⟨⟨0, 0, 0⟩, true, 0x31 :: List.replicate TRIMEXPECT 0x30⟩, ⟨⟨0, 0, 0⟩, true, [0x32]⟩,
    ⟨⟨1, 0, 1⟩, true, []⟩]

theorem quiet_zerosPolls : Quiet zerosPolls := by
  refine ⟨fun p hp => ?_, by simp [zerosPolls], by simp [zerosPolls]⟩
  simp only [zerosPolls, List.mem_cons, List.not_mem_nil, or_false] at hp
  rcases hp with rfl | rfl | rfl <;> simp

theorem livePolls_zerosPolls : livePolls 1 0 zerosPolls = zerosPolls.take 2 := by
  simp [livePolls, deadline, inTime, zerosPolls]

theorem zerosRegex_eq : zerosRegex zerosExpr = some zerosSearch := rfl

/-- A cut falls at the end of the first chunk. -/
theorem mem_cuts_zeros :
    TRIMEXPECT + 1 ∈ cuts (zerosExpr.length + 1) ((zerosPolls.take 2).take 1) := by
  have hlens : (((zerosPolls.take 2).take 1).map Poll.chunk).map List.length =
      [TRIMEXPECT + 1] := by
    simp [zerosPolls]
  rw [cuts, hlens, cutEnds, if_pos ⟨by omega, by omega⟩, Nat.zero_add]
  exact List.mem_cons_self

/-- The cut leaves `00000`, and the call runs into its deadline. -/
theorem cut_loses_match : ¬ FirstMatch (Contains Zeros) (livePolls 1 0 zerosPolls)
    (decide ((livePolls 1 0 zerosPolls).length < zerosPolls.length))
    (strwaittOn zerosRegex (Dev.init none) zerosPattern 1 0 zerosPolls) := by
  have hvalid := fun a => matchExpr_regex zerosRegex_eq zerosSearch_iff
    (rfl : zerosPattern.bytes = 0x3f :: zerosExpr) a
  have h0 := Quiet.live quiet_zerosPolls 1 0
  rw [strwaittOn_firstMatch_iff (Dev.init none) 1 0 quiet_zerosPolls (fun a => (hvalid a).2.mp)
    fun _ _ hab => Contains.mono hab]
  rw [livePolls_zerosPolls] at h0 ⊢
  intro hright
  have hwhole : Contains Zeros (textAt (zerosPolls.take 2) 2) := by
    refine ⟨_, ?_, .run TRIMEXPECT⟩
    simp [textAt, zerosPolls]
  have hfirst : ∀ j < 1, ¬ Contains Zeros (textAt (zerosPolls.take 2) (j + 1)) := by
    intro j hj
    obtain rfl : j = 0 := by omega
    rintro ⟨u, hu, ⟨n⟩⟩
    -- there is no `2` in the first chunk
    have hmem : (0x32 : Byte) ∈ textAt (zerosPolls.take 2) 1 := hu.subset (by simp)
    simp [textAt, zerosPolls] at hmem
  have hseen := Scanner.seenAt_of_found (hright.hit 1 (by simp [zerosPolls]) hwhole hfirst)
  obtain ⟨p, -, -, -, a, ⟨u, hu, ⟨n⟩⟩, hcuts⟩ :=
    (seenAt_regex zerosRegex_eq zerosSearch_iff rfl h0 1).mp hseen
  have hcut := hcuts _ mem_cuts_zeros
  have hlen : zerosExpr.length + 1 = 5 := rfl
  rw [hlen] at hcut
  -- a match begins with the `1`, and the only one stands at 0
  obtain ⟨b, rfl⟩ : ∃ b, a = b + 1 := Nat.exists_eq_add_of_le' (by unfold TRIMEXPECT at hcut; omega)
  have hmem : (0x31 : Byte) ∈ (textAt (zerosPolls.take 2) 2).drop (b + 1) :=
    hu.subset List.mem_cons_self
  have htext : textAt (zerosPolls.take 2) 2 =
      0x31 :: (List.replicate TRIMEXPECT 0x30 ++ [0x32]) := by
    simp [textAt, zerosPolls]
  rw [htext, List.drop_succ_cons] at hmem
  simpa using List.mem_of_mem_drop hmem

theorem strwaitt_regex_iff_zeros :
    FirstMatch (Contains Zeros) (livePolls 1 0 zerosPolls)
        (decide ((livePolls 1 0 zerosPolls).length < zerosPolls.length))
        (strwaittOn zerosRegex (Dev.init none) zerosPattern 1 0 zerosPolls) ↔
      Uncut Zeros (zerosExpr.length + 1) (livePolls 1 0 zerosPolls) :=
  strwaitt_regex_iff zerosRegex_eq zerosSearch_iff rfl (Dev.init none) 1 0 quiet_zerosPolls

end Autocom.ExpectRegex
