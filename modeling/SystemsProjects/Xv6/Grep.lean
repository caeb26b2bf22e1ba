import SystemsProjects.Lib.Loop
import SystemsProjects.Lib.TextLines
import SystemsProjects.Xv6.Matcher

/-!
# The lines that `grep` prints

`grep` reads a file into a buffer of 1024 characters, prints the complete lines in it that match
the pattern, moves the rest to the front of the buffer and reads on behind it.  Two things are
easy to miss in that loop.  If there is no newline in the buffer, `m` is set to 0 and all that
has been read of the line is dropped; and what stands behind the last newline of the file is
never looked at.

A read of a file returns what was asked for, or the rest of the file.  So the buffer, which
always begins where a line begins, holds 1023 characters or all that is left, and a line of up
to 1022 characters is complete in it.  `grep_eq` says that for a file of such lines the output
is what it should be, across all the reads: the lines that match, in order, each with its
newline.
-/

namespace SystemsProjects
namespace Xv6
namespace Grep

open Lib

/-- `'\0'` -/
def nul : Char := Char.ofNat 0

/-- `sizeof(buf)` -/
def bufSize : ℕ := 1024

/-- `strchr`: the place of a character in the string that begins here. -/
def strchr (p : List Char) (c : Char) : Option ℕ := (p.takeWhile (· ≠ nul)).idxOf? c

/-- The body of the inner loop, on `p` and what has been written. -/
def scanBody (pattern : List Char) :
    List Char × List Char → Except Unit (List Char × List Char ⊕ List Char × List Char)
  | (p, out) =>
    match strchr p '\n' with
    | none => .ok (.inr (p, out))
    | some q =>
      -- the newline is replaced by a NUL while the line is matched
      let written := if matchRe pattern (p.take q) then p.take (q + 1) else []
      .ok (.inl (p.drop (q + 1), out ++ written))

/-- The lines of the buffer: where `p` stands behind them, and what has been written. -/
def scan (pattern : List Char) (buf : List Char) : Except Unit (List Char × List Char) :=
  loop () (scanBody pattern) (buf.length + 1) (buf, [])

/-- The body of the outer loop, on the rest of the file, the `m` characters that are in the
buffer, and what has been written. -/
def grepBody (pattern : List Char) :
    List Char × List Char × List Char →
      Except Unit (List Char × List Char × List Char ⊕ List Char)
  | (file, buf, out) => do
    let chunk := file.take (bufSize - buf.length - 1)
    if chunk.length = 0 then
      return .inr out
    else
      let (p, written) ← scan pattern (buf ++ chunk)
      let rest := if p.length = (buf ++ chunk).length then [] else p
      return .inl (file.drop chunk.length, rest, out ++ written)

/-- `grep` on a file: what it writes. -/
def grep (pattern file : List Char) : Except Unit (List Char) :=
  loop () (grepBody pattern) (file.length + 1) (file, [], [])

/-! ## What it should write -/

/-- The complete lines that match a pattern, with their newlines. -/
def matchingLines (pattern text : List Char) : List Char :=
  ((completeLines '\n' text).filter (matchRe pattern)).flatMap (· ++ ['\n'])

variable {pattern l text rest p out file buf : List Char}

theorem matchingLines_of_notMem (h : '\n' ∉ l) : matchingLines pattern l = [] := by
  rw [matchingLines, completeLines_of_notMem h]
  rfl

theorem matchingLines_line (h : '\n' ∉ l) (rest : List Char) :
    matchingLines pattern (l ++ '\n' :: rest) =
      (if matchRe pattern l then l ++ ['\n'] else []) ++ matchingLines pattern rest := by
  rw [matchingLines, completeLines_line h, List.filter_cons]
  split
  · rfl
  · rfl

theorem matchingLines_append (pattern text rest : List Char) :
    matchingLines pattern (text ++ rest) =
      matchingLines pattern text ++ matchingLines pattern (lastLine '\n' text ++ rest) := by
  rw [matchingLines, completeLines_append, List.filter_append, List.flatMap_append]
  rfl

/-! ## The inner loop -/

theorem takeWhile_nulFree (h : nul ∉ p) : p.takeWhile (· ≠ nul) = p := by
  refine List.takeWhile_eq_self_iff.mpr fun c hc => decide_eq_true ?_
  rintro rfl
  exact h hc

theorem strchr_of_notMem (h : '\n' ∉ p) : strchr p '\n' = none := by
  rw [strchr, List.idxOf?_eq_none_iff]
  exact fun hmem => h ((List.takeWhile_sublist _).mem hmem)

theorem strchr_line (hnul : nul ∉ l ++ '\n' :: rest) (hl : '\n' ∉ l) :
    strchr (l ++ '\n' :: rest) '\n' = some l.length := by
  rw [strchr, takeWhile_nulFree hnul, List.idxOf?_eq_some_iff]
  refine ⟨by simp, by simp, fun j hj heq => hl ?_⟩
  rw [List.getElem_append_left hj] at heq
  exact heq ▸ List.getElem_mem hj

theorem scanBody_line (hnul : nul ∉ l ++ '\n' :: rest) (hl : '\n' ∉ l) :
    scanBody pattern (l ++ '\n' :: rest, out) =
      .ok (.inl (rest, out ++ if matchRe pattern l then l ++ ['\n'] else [])) := by
  have hdrop : (l ++ '\n' :: rest).drop (l.length + 1) = rest := by
    rw [← List.drop_drop, List.drop_left]
    rfl
  have htake : (l ++ '\n' :: rest).take (l.length + 1) = l ++ ['\n'] := by
    rw [List.take_length_add_append]
    rfl
  simp only [scanBody, strchr_line hnul hl, hdrop, htake, List.take_left]

/-- The loop over the lines of the buffer, from any place in it. -/
theorem scan_loop (pattern p : List Char) : ∀ (fuel : ℕ) (out : List Char),
    p.length < fuel → nul ∉ p →
    loop () (scanBody pattern) fuel (p, out) =
      .ok (lastLine '\n' p, out ++ matchingLines pattern p) := by
  induction p using text_induction '\n' with
  | hlast l hl =>
    intro fuel out hfuel _
    obtain ⟨fuel, rfl⟩ := Nat.exists_eq_succ_of_ne_zero (Nat.ne_of_gt (Nat.zero_lt_of_lt hfuel))
    rw [lastLine_of_notMem hl, matchingLines_of_notMem hl, List.append_nil]
    refine loop_of_leave ?_
    simp only [scanBody, strchr_of_notMem hl]
  | hline l rest hl ih =>
    intro fuel out hfuel hnul
    obtain ⟨fuel, rfl⟩ := Nat.exists_eq_succ_of_ne_zero (Nat.ne_of_gt (Nat.zero_lt_of_lt hfuel))
    rw [List.length_append, List.length_cons] at hfuel
    rw [loop_of_continue (scanBody_line hnul hl),
      ih fuel _ (by omega) fun hmem => hnul (List.mem_append_right _ (List.mem_cons_of_mem _ hmem)),
      lastLine_line hl, matchingLines_line hl, List.append_assoc]

/-- **The lines of the buffer are printed if they match.** -/
theorem scan_eq (pattern : List Char) (hnul : nul ∉ buf) :
    scan pattern buf = .ok (lastLine '\n' buf, matchingLines pattern buf) :=
  scan_loop pattern buf _ [] (Nat.lt_succ_self _) hnul

/-! ## The outer loop -/

/-- A file of lines that fit into the buffer. -/
def ShortLines (text : List Char) : Prop :=
  ∀ l ∈ completeLines '\n' text, l.length ≤ bufSize - 2

/-- A text of short lines that begins with a buffer without a newline is such a buffer, or it
has no newline at all. -/
theorem ShortLines.notMem (h : ShortLines (buf ++ rest)) (hbuf : '\n' ∉ buf)
    (hfull : rest = [] ∨ bufSize - 1 ≤ buf.length) : '\n' ∉ rest := by
  rcases hfull with rfl | hfull
  · exact List.not_mem_nil
  · intro hmem
    obtain ⟨l, more, hrest, hl⟩ := List.eq_append_cons_of_mem hmem
    have hnot : '\n' ∉ buf ++ l := fun hm => (List.mem_append.mp hm).elim hbuf hl
    have hshort := h (buf ++ l) (by
      rw [hrest, ← List.append_assoc, completeLines_line hnot]
      exact List.mem_cons_self)
    rw [List.length_append] at hshort
    unfold bufSize at hfull hshort
    omega

/-- What the loop keeps: the buffer holds the beginning of a line. -/
structure Reading (file buf : List Char) : Prop where
  nulFree : nul ∉ buf ++ file
  partial_line : '\n' ∉ buf
  room : buf.length ≤ bufSize - 2
  short : ShortLines (buf ++ file)

/-- A read of a file, which returns something at its front. -/
theorem read_split (n : ℕ) (file : List Char) :
    file.take n ++ file.drop (file.take n).length = file := by
  rw [List.length_take]
  rcases le_total n file.length with h | h
  · rw [min_eq_left h, List.take_append_drop]
  · rw [min_eq_right h, List.drop_length, List.take_of_length_le h, List.append_nil]

/-- A buffer that has a newline. -/
theorem Reading.of_newline (hnul : nul ∉ buf ++ rest) (hlen : buf.length ≤ bufSize - 1)
    (hshort : ShortLines (buf ++ rest)) (hmem : '\n' ∈ buf) :
    Reading rest (lastLine '\n' buf) where
  nulFree hm := by
    rcases List.mem_append.mp hm with hm | hm
    · exact hnul (List.mem_append_left _ ((lastLine_suffix '\n' buf).mem hm))
    · exact hnul (List.mem_append_right _ hm)
  partial_line := newline_notMem_lastLine '\n' buf
  room := by
    have := length_lastLine_lt hmem
    omega
  short l hl := hshort l (by
    rw [completeLines_append]
    exact List.mem_append_right _ hl)

/-- The empty buffer in front of a rest without a newline. -/
theorem Reading.of_notMem (hnul : nul ∉ rest) (hmem : '\n' ∉ rest) : Reading rest [] where
  nulFree := hnul
  partial_line := List.not_mem_nil
  room := Nat.zero_le _
  short l hl := by
    rw [List.nil_append, completeLines_of_notMem hmem] at hl
    exact absurd hl List.not_mem_nil

/-- **One read.**  Behind it the buffer again holds the beginning of a line, and nothing of what
is to be printed is lost. -/
theorem grepBody_spec (pattern out : List Char) (h : Reading file buf) (hfile : file ≠ []) :
    ∃ file' buf' written, grepBody pattern (file, buf, out) =
        .ok (.inl (file', buf', out ++ written)) ∧
      Reading file' buf' ∧ file'.length < file.length ∧
      matchingLines pattern (buf ++ file) = written ++ matchingLines pattern (buf' ++ file') := by
  obtain ⟨n, hn⟩ : ∃ n, n = bufSize - buf.length - 1 := ⟨_, rfl⟩
  have hroom := h.room
  have hbig : 2 < bufSize := by decide
  have hpos : 0 < file.length := List.length_pos_iff.mpr hfile
  obtain ⟨chunk, hchunk⟩ : ∃ chunk, chunk = file.take n := ⟨_, rfl⟩
  obtain ⟨rest, hrest⟩ : ∃ rest, rest = file.drop chunk.length := ⟨_, rfl⟩
  have hlen : chunk.length = min n file.length := by rw [hchunk, List.length_take]
  have hsplit : buf ++ file = (buf ++ chunk) ++ rest := by
    rw [List.append_assoc, hrest, hchunk, read_split]
  have hnul : nul ∉ (buf ++ chunk) ++ rest := hsplit ▸ h.nulFree
  have hshort : ShortLines ((buf ++ chunk) ++ rest) := hsplit ▸ h.short
  have hshrink : rest.length < file.length := by
    rw [hrest, List.length_drop]
    omega
  have hbody : grepBody pattern (file, buf, out) = .ok (.inl (rest,
      (if (lastLine '\n' (buf ++ chunk)).length = (buf ++ chunk).length then []
        else lastLine '\n' (buf ++ chunk)), out ++ matchingLines pattern (buf ++ chunk))) := by
    have hne : ¬ chunk.length = 0 := by omega
    simp only [grepBody, ← hn, ← hchunk, if_neg hne,
      scan_eq pattern fun hm => hnul (List.mem_append_left _ hm), ok_bind, ← hrest]
    rfl
  by_cases hmem : '\n' ∈ buf ++ chunk
  · have hlt := length_lastLine_lt hmem
    rw [if_neg (Nat.ne_of_lt hlt)] at hbody
    refine ⟨rest, _, _, hbody, Reading.of_newline hnul ?_ hshort hmem, hshrink, ?_⟩
    · rw [List.length_append]
      omega
    · rw [hsplit, matchingLines_append]
  · rw [lastLine_of_notMem hmem, if_pos rfl, matchingLines_of_notMem hmem] at hbody
    have hfull : rest = [] ∨ bufSize - 1 ≤ (buf ++ chunk).length := by
      rw [List.length_append]
      rcases le_total n file.length with hle | hle
      · exact Or.inr (by omega)
      · refine Or.inl (List.eq_nil_of_length_eq_zero ?_)
        rw [hrest, List.length_drop]
        omega
    have hno := hshort.notMem hmem hfull
    refine ⟨rest, [], [], hbody, Reading.of_notMem (fun hm => hnul
      (List.mem_append_right _ hm)) hno, hshrink, ?_⟩
    rw [hsplit, List.nil_append, List.nil_append, matchingLines_of_notMem hno,
      matchingLines_of_notMem fun hm => (List.mem_append.mp hm).elim hmem hno]

/-- The loop, from any place in the file. -/
theorem grep_loop (pattern : List Char) : ∀ (fuel : ℕ) {file buf out : List Char},
    file.length < fuel → Reading file buf →
    loop () (grepBody pattern) fuel (file, buf, out) =
      .ok (out ++ matchingLines pattern (buf ++ file)) := by
  intro fuel
  induction fuel with
  | zero => exact fun h => absurd h (Nat.not_lt_zero _)
  | succ fuel ih =>
    intro file buf out hfuel h
    by_cases hfile : file = []
    · subst hfile
      rw [List.append_nil, matchingLines_of_notMem h.partial_line, List.append_nil]
      refine loop_of_leave ?_
      rw [grepBody, List.take_nil]
      rfl
    · obtain ⟨file', buf', written, hbody, hr, hlt, heq⟩ := grepBody_spec pattern out h hfile
      rw [loop_of_continue hbody, ih (by omega) hr, heq, List.append_assoc]

/-- **`grep` prints the lines in which the pattern occurs**, in order and each with its newline,
for every file without a NUL whose complete lines have at most 1022 characters. -/
theorem grep_eq (pattern file : List Char) (hnul : nul ∉ file)
    (hshort : ∀ l ∈ completeLines '\n' file, l.length ≤ 1022) :
    grep pattern file = .ok (((completeLines '\n' file).filter
      (· ∈ language pattern)).flatMap (· ++ ['\n'])) := by
  have hfilter : (completeLines '\n' file).filter (· ∈ language pattern) =
      (completeLines '\n' file).filter (matchRe pattern) :=
    List.filter_congr fun l _ => by
      rw [← Bool.coe_iff_coe, decide_eq_true_iff, matchRe_iff]
  rw [hfilter]
  exact grep_loop pattern _ (Nat.lt_succ_self _)
    ⟨hnul, List.not_mem_nil, Nat.zero_le _, hshort⟩

/-- More than the buffer holds, the end of which is within the third line. -/
def longFile : List Char :=
  (List.replicate 3 (List.replicate 400 'a' ++ ['c', '\n'])).flatten ++ "abd\nac\nbc".toList

theorem grep_eq_longFile : bufSize < longFile.length ∧
    grep "^a.*c$".toList longFile = .ok (((completeLines '\n' longFile).filter
      (· ∈ language "^a.*c$".toList)).flatMap (· ++ ['\n'])) ∧
    grep "^a.*c$".toList longFile =
      .ok ((List.replicate 3 (List.replicate 400 'a' ++ ['c', '\n'])).flatten ++ "ac\n".toList) :=
  ⟨by decide +kernel, grep_eq _ _ (by decide +kernel) (by decide +kernel), by decide +kernel⟩

example : grep "^a.*c$".toList "abc\nabd\nac\nbc".toList = .ok "abc\nac\n".toList := by decide

end Grep
end Xv6
end SystemsProjects
