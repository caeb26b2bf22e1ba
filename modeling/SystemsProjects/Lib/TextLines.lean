import SystemsProjects.Lib.Fields

/-!
# Lines of a text, and `fgets`

The lines of a text are its parts between the newlines.  A text that ends with a newline has
an empty last line, which no reader sees.  `completeLines` are those that end with a newline,
and `lastLine` is what stands behind them.

`fgets` takes a line with its newline, if there is room for it.
-/

namespace SystemsProjects
namespace Lib

variable {α : Type*} [DecidableEq α] {newline : α} {l rest : List α}

/-- The lines of a text, without the newlines. -/
def textLines (newline : α) (text : List α) : List (List α) := text.splitOnP fun c => c = newline

/-- A text of one line. -/
theorem textLines_of_notMem (hl : newline ∉ l) : textLines newline l = [l] := by
  refine List.splitOnP_eq_singleton fun c hc => decide_eq_false ?_
  rintro rfl
  exact hl hc

/-- The first line of a text, and the text behind it. -/
theorem textLines_append (hl : newline ∉ l) (rest : List α) :
    textLines newline (l ++ newline :: rest) = l :: textLines newline rest := by
  have hother : ∀ c ∈ l, decide (c = newline) = false := fun c hc =>
    decide_eq_false fun h => hl (h ▸ hc)
  exact List.splitOnP_append_cons_of_forall_mem hother newline (decide_eq_true rfl) rest

/-- A text is one line, or it has a first line. -/
theorem textLines_cases (newline : α) (text : List α) :
    newline ∉ text ∨ ∃ l rest, newline ∉ l ∧ text = l ++ newline :: rest := by
  by_cases hmem : newline ∈ text
  · obtain ⟨l, rest, htext, hl⟩ := List.eq_append_cons_of_mem hmem
    exact Or.inr ⟨l, rest, hl, htext⟩
  · exact Or.inl hmem

/-- **Induction over the lines of a text.** -/
theorem text_induction (newline : α) {P : List α → Prop} (hlast : ∀ l, newline ∉ l → P l)
    (hline : ∀ l rest, newline ∉ l → P rest → P (l ++ newline :: rest)) (text : List α) :
    P text := by
  induction hn : text.length using Nat.strong_induction_on generalizing text with
  | h n ih =>
    rcases textLines_cases newline text with h | ⟨l, rest, hl, rfl⟩
    · exact hlast text h
    · refine hline l rest hl (ih rest.length ?_ rest rfl)
      rw [← hn, List.length_append, List.length_cons]
      omega

theorem textLines_ne_nil (newline : α) (text : List α) : textLines newline text ≠ [] :=
  List.splitOnP_ne_nil _ _

/-- The lines of a text that end with a newline. -/
def completeLines (newline : α) (text : List α) : List (List α) :=
  (textLines newline text).dropLast

/-- What stands behind the last newline. -/
def lastLine (newline : α) (text : List α) : List α :=
  (textLines newline text).getLast (textLines_ne_nil newline text)

theorem completeLines_of_notMem (hl : newline ∉ l) : completeLines newline l = [] := by
  rw [completeLines, textLines_of_notMem hl]
  rfl

theorem completeLines_line (hl : newline ∉ l) (rest : List α) :
    completeLines newline (l ++ newline :: rest) = l :: completeLines newline rest := by
  rw [completeLines, textLines_append hl, List.dropLast_cons_of_ne_nil (textLines_ne_nil _ rest)]
  rfl

theorem lastLine_of_notMem (hl : newline ∉ l) : lastLine newline l = l := by
  unfold lastLine
  simp only [textLines_of_notMem hl, List.getLast_singleton]

theorem lastLine_line (hl : newline ∉ l) (rest : List α) :
    lastLine newline (l ++ newline :: rest) = lastLine newline rest := by
  unfold lastLine
  simp only [textLines_append hl]
  exact List.getLast_cons (textLines_ne_nil newline rest)

theorem newline_notMem_lastLine (newline : α) (text : List α) :
    newline ∉ lastLine newline text := by
  induction text using text_induction newline with
  | hlast l hl => rwa [lastLine_of_notMem hl]
  | hline l rest hl ih => rwa [lastLine_line hl]

theorem lastLine_suffix (newline : α) (text : List α) : lastLine newline text <:+ text := by
  induction text using text_induction newline with
  | hlast l hl => rw [lastLine_of_notMem hl]
  | hline l rest hl ih =>
    rw [lastLine_line hl]
    exact ih.trans ((List.suffix_cons newline rest).trans (List.suffix_append l _))

/-- A text that has a newline is longer than what stands behind the last one. -/
theorem length_lastLine_lt {text : List α} (h : newline ∈ text) :
    (lastLine newline text).length < text.length := by
  rcases textLines_cases newline text with hno | ⟨l, rest, hl, rfl⟩
  · exact absurd h hno
  · have := (lastLine_suffix newline rest).length_le
    rw [lastLine_line hl, List.length_append, List.length_cons]
    omega

/-- **A text in two parts**: the complete lines of the first part, and those that begin in what
stands behind its last newline. -/
theorem completeLines_append (newline : α) (text rest : List α) :
    completeLines newline (text ++ rest) =
      completeLines newline text ++ completeLines newline (lastLine newline text ++ rest) := by
  induction text using text_induction newline with
  | hlast l hl => rw [completeLines_of_notMem hl, lastLine_of_notMem hl, List.nil_append]
  | hline l more hl ih =>
    rw [List.append_assoc, List.cons_append, completeLines_line hl, completeLines_line hl, ih,
      lastLine_line hl, List.cons_append]

/-- At most `n` characters, none behind a newline, and what is left of the file. -/
def takeLine (newline : α) : ℕ → List α → List α × List α
  | 0, file => ([], file)
  | _ + 1, [] => ([], [])
  | n + 1, c :: file =>
      if c = newline then ([c], file)
      else (c :: (takeLine newline n file).1, (takeLine newline n file).2)

/-- `fgets` with a buffer of `size` characters. -/
def fgets (newline : α) (size : ℕ) (file : List α) : Option (List α × List α) :=
  if file = [] then none else some (takeLine newline (size - 1) file)

theorem takeLine_line (hl : newline ∉ l) (rest : List α) : ∀ {n : ℕ}, l.length < n →
    takeLine newline n (l ++ newline :: rest) = (l ++ [newline], rest) := by
  induction l with
  | nil =>
    intro n hn
    obtain ⟨n, rfl⟩ := Nat.exists_eq_succ_of_ne_zero (Nat.ne_of_gt hn)
    exact if_pos rfl
  | cons c l ih =>
    intro n hn
    obtain ⟨n, rfl⟩ := Nat.exists_eq_succ_of_ne_zero (Nat.ne_of_gt (Nat.zero_lt_of_lt hn))
    obtain ⟨hc, hl⟩ := not_or.mp (mt List.mem_cons.mpr hl)
    rw [List.cons_append, takeLine, if_neg (Ne.symm hc), ih hl (Nat.lt_of_succ_lt_succ hn)]
    rfl

theorem takeLine_last (hl : newline ∉ l) : ∀ {n : ℕ}, l.length ≤ n →
    takeLine newline n l = (l, []) := by
  induction l with
  | nil =>
    intro n _
    cases n <;> rfl
  | cons c l ih =>
    intro n hn
    obtain ⟨n, rfl⟩ := Nat.exists_eq_succ_of_ne_zero (Nat.ne_of_gt (Nat.zero_lt_of_lt hn))
    obtain ⟨hc, hl⟩ := not_or.mp (mt List.mem_cons.mpr hl)
    rw [takeLine, if_neg (Ne.symm hc), ih hl (Nat.le_of_succ_le_succ hn)]

/-- **A line with its newline.** -/
theorem fgets_line (hl : newline ∉ l) {size : ℕ} (hsize : l.length < size - 1) :
    fgets newline size (l ++ newline :: rest) = some (l ++ [newline], rest) := by
  rw [fgets, if_neg (List.append_ne_nil_of_right_ne_nil l (List.cons_ne_nil newline rest)),
    takeLine_line hl rest hsize]

/-- **The last line**, without a newline. -/
theorem fgets_last (hl : newline ∉ l) (hne : l ≠ []) {size : ℕ} (hsize : l.length ≤ size - 1) :
    fgets newline size l = some (l, []) := by
  rw [fgets, if_neg hne, takeLine_last hl hsize]

end Lib
end SystemsProjects
