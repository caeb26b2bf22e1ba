import SystemsProjects.Shell.Rounds

/-!
# Which lines the shell survives

The loop of `main` passes the results of `strtok` on without a test.  A line without
a part between pipes, or with a part without a word, gives `strcpy` a NULL, and as
long as no line has had two parts the buffer `second` is tokenized unfilled.

`survives_iff` says for every list of lines, and whatever the operating system answers,
when each round ends in a new prompt or in `exit`: every line that is read must have
a word in its first part and in its second, if there is one, and the first line must
have two parts.
-/

namespace SystemsProjects
namespace Shell

open Lib

/-! ## Lines -/

/-- The nonempty parts of a line between pipes. -/
def Line.segments (l : Line) : List (List UInt8) := fields isPipe l.inputs.bytes

/-- A line with a second part. -/
def Line.Piped (l : Line) : Prop := 2 ≤ l.segments.length

/-- A part with a byte that is not a blank, a tab or a newline. -/
def HasWord (segment : List UInt8) : Prop := ∃ b ∈ segment, isBlank b = false

/-- A line whose first part exists and whose first two parts have a word. -/
structure Line.Runnable (l : Line) : Prop where
  nonempty : l.segments ≠ []
  words : ∀ segment ∈ l.segments.take 2, HasWord segment

/-- A line with one part, whose first word is `exit`. -/
def Line.Exits (l : Line) : Prop :=
  ∃ segment, l.segments = [segment] ∧
    (fields isBlank segment).head? = some exitName.bytes

/-- The lines that the shell survives, `filled` saying whether `second` has been
filled by a line before them. -/
def Survivable : Prop → List Line → Prop
  | _, [] => True
  | filled, l :: ls => l.Runnable ∧ (filled ∨ l.Piped) ∧ (l.Exits ∨ Survivable True ls)

instance (l : Line) : Decidable l.Piped := inferInstanceAs (Decidable (_ ≤ _))

instance (segment : List UInt8) : Decidable (HasWord segment) :=
  inferInstanceAs (Decidable (∃ b ∈ segment, isBlank b = false))

theorem hasWord_iff {s : CString} : HasWord s.bytes ↔ tokens isBlank s ≠ [] := by
  rw [Ne, tokens_eq_nil_iff, fields_eq_nil_iff, HasWord]
  simp

theorem hasWord_of_tokens {s a : CString} {as : List CString}
    (h : tokens isBlank s = a :: as) : HasWord s.bytes := by
  rw [hasWord_iff, h]
  exact List.cons_ne_nil a as

theorem head_fields_eq {s a : CString} {as : List CString} (h : tokens isBlank s = a :: as) :
    (fields isBlank s.bytes).head? = some a.bytes := by
  rw [← tokens_bytes, h]
  rfl

theorem exit_iff {s a : CString} {as : List CString} (h : tokens isBlank s = a :: as) :
    (fields isBlank s.bytes).head? = some exitName.bytes ↔ a = exitName := by
  rw [head_fields_eq h, Option.some.injEq]
  constructor
  · intro hb
    cases a
    cases hb
    rfl
  · intro ha
    rw [ha]

/-! ## Parts and calls of `strtok` -/

theorem segments_none {l : Line} (h : strtok isPipe l.inputs = none) : l.segments = [] :=
  strtok_eq_none_iff.mp h

theorem segments_one {l : Line} {split saved : CString}
    (h : strtok isPipe l.inputs = some (split, saved)) (h' : strtok isPipe saved = none) :
    l.segments = [split.bytes] := by
  rw [Line.segments, strtok_fields h, strtok_eq_none_iff.mp h']

theorem segments_two {l : Line} {split saved second rest : CString}
    (h : strtok isPipe l.inputs = some (split, saved))
    (h' : strtok isPipe saved = some (second, rest)) :
    l.segments = split.bytes :: second.bytes :: fields isPipe rest.bytes := by
  rw [Line.segments, strtok_fields h, strtok_fields h']

/-! ## One round -/

theorem Line.lt_bufferSize (l : Line) : strlen l.inputs < bufferSize :=
  Nat.lt_succ_of_le l.short

theorem oneCommand_ready {s : Process} {second a : CString} (h : strlen second < bufferSize) :
    (s.oneCommand second a).Ready where
  size := Process.remember_size_lt _ _
  second t ht := by
    rw [← Option.some.inj ht]
    exact (strlen_afterStrtok_le isBlank second).trans_lt h

theorem ready_of_sameArrays {s t : Process} (h : s.SameArrays t) (hs : s.Ready) : t.Ready where
  size := h.size ▸ hs.size
  second u hu := hs.second u (h.second ▸ hu)

/-- **A round that ends** has run a line that could be run, and leaves a process that
is ready for the next one. -/
theorem round_ends {s : Process} (hs : s.Ready) {l : Line} {sys : System} {o : Outcome}
    (h : round l.inputs sys s = .ok o) :
    l.Runnable ∧ (s.second.isSome ∨ l.Piped) ∧
      ((l.Exits ∧ o = .exit 1) ∨
        (¬ l.Exits ∧ ∃ t, o = .running t ∧ t.Ready ∧ t.second.isSome)) := by
  rcases (round_eq_ok_iff hs l.lt_bufferSize).mp h with
    ⟨split, saved, second, a, as, hsplit, hsaved, hfilled, hargs, hrun⟩ |
    ⟨split, saved, second, rest, a, as, b, bs, hsplit, hsaved, hargs, hargs2, t, hrun, rfl⟩
  · have hseg := segments_one hsplit hsaved
    have hexits : l.Exits ↔ a = exitName := by
      rw [← exit_iff hargs, Line.Exits]
      constructor
      · rintro ⟨segment, hsegment, hhead⟩
        rw [hseg] at hsegment
        rw [(List.cons.inj hsegment).1]
        exact hhead
      · intro hhead
        exact ⟨split.bytes, hseg, hhead⟩
    refine ⟨⟨by simp [hseg], ?_⟩, Or.inl (by simp [hfilled]), ?_⟩
    · intro segment hmem
      rw [hseg] at hmem
      rw [List.mem_singleton.mp hmem]
      exact hasWord_of_tokens hargs
    · rcases handleInputs_cases a as sys (s.oneCommand second a) with
        ⟨ha, hexit⟩ | ⟨ha, t, ht, hsame, -⟩
      · rw [hexit] at hrun
        exact Or.inl ⟨hexits.mpr ha, (Except.ok.inj hrun).symm⟩
      · rw [ht] at hrun
        refine Or.inr ⟨fun hx => ha (hexits.mp hx), t, (Except.ok.inj hrun).symm, ?_, ?_⟩
        · exact ready_of_sameArrays hsame (oneCommand_ready (hs.second second hfilled))
        · rw [hsame.second]
          rfl
  · have hseg := segments_two hsplit hsaved
    have hbuf : strlen second < bufferSize :=
      ((strlen_of_strtok hsaved).1.trans (strlen_of_strtok hsplit).2.le).trans_lt l.lt_bufferSize
    obtain ⟨t', ht', hsame, -⟩ := handleTwoInputs_ok a b as bs sys (s.twoCommands second a b)
    obtain rfl : t' = t := by
      rw [ht'] at hrun
      exact Except.ok.inj hrun
    refine ⟨⟨by simp [hseg], ?_⟩, Or.inr (by simp [Line.Piped, hseg]), Or.inr ⟨?_, t', rfl, ?_, ?_⟩⟩
    · intro segment hmem
      rw [hseg] at hmem
      rcases List.mem_cons.mp hmem with rfl | hmem
      · exact hasWord_of_tokens hargs
      · rw [List.mem_singleton.mp hmem]
        exact hasWord_of_tokens hargs2
    · rintro ⟨segment, hsegment, -⟩
      rw [hseg] at hsegment
      cases hsegment
    · refine ready_of_sameArrays hsame ⟨Process.remember_size_lt _ _, ?_⟩
      exact (oneCommand_ready (s := s) (a := a) hbuf).second
    · rw [hsame.second]
      rfl

/-- A line that can be run, with `second` filled now or before, does end its round. -/
theorem round_ends_of {s : Process} (hs : s.Ready) {l : Line} (hl : l.Runnable)
    (hfilled : s.second.isSome ∨ l.Piped) (sys : System) :
    ∃ o, round l.inputs sys s = .ok o := by
  rcases hsplit : strtok isPipe l.inputs with _ | ⟨split, saved⟩
  · exact absurd (segments_none hsplit) hl.nonempty
  rcases hsaved : strtok isPipe saved with _ | ⟨second, rest⟩
  · have hseg := segments_one hsplit hsaved
    have hword := hl.words split.bytes (by simp [hseg])
    obtain ⟨a, as, hargs⟩ := List.exists_cons_of_ne_nil (hasWord_iff.mp hword)
    obtain ⟨second, hsecond⟩ : ∃ second, s.second = some second := by
      rcases hfilled with h | h
      · exact Option.isSome_iff_exists.mp h
      · rw [Line.Piped, hseg] at h
        simp at h
    have hrun : ∃ o, handleInputs (a :: as) sys (s.oneCommand second a) = .ok o := by
      rcases handleInputs_cases a as sys (s.oneCommand second a) with ⟨-, h⟩ | ⟨-, t, h, -⟩
      · exact ⟨_, h⟩
      · exact ⟨_, h⟩
    obtain ⟨o, ho⟩ := hrun
    exact ⟨o, (round_eq_ok_iff hs l.lt_bufferSize).mpr
      (Or.inl ⟨split, saved, second, a, as, hsplit, hsaved, hsecond, hargs, ho⟩)⟩
  · have hseg := segments_two hsplit hsaved
    have hword := hl.words split.bytes (by simp [hseg])
    have hword2 := hl.words second.bytes (by simp [hseg])
    obtain ⟨a, as, hargs⟩ := List.exists_cons_of_ne_nil (hasWord_iff.mp hword)
    obtain ⟨b, bs, hargs2⟩ := List.exists_cons_of_ne_nil (hasWord_iff.mp hword2)
    obtain ⟨t, ht, -⟩ := handleTwoInputs_ok a b as bs sys (s.twoCommands second a b)
    exact ⟨.running t, (round_eq_ok_iff hs l.lt_bufferSize).mpr
      (Or.inr ⟨split, saved, second, rest, a, as, b, bs, hsplit, hsaved, hargs, hargs2,
        t, ht, rfl⟩)⟩

/-! ## A session -/

theorem session_cons (s : Process) (l : Line) (sys : System) (rest : List (Line × System)) :
    session s ((l, sys) :: rest) = round l.inputs sys s >>= fun
      | .exit status => .ok (.exit status)
      | .running t => session t rest := rfl

theorem session_ok_iff {s : Process} (hs : s.Ready) (input : List (Line × System)) :
    (∃ o, session s input = .ok o) ↔ Survivable s.second.isSome (input.map Prod.fst) := by
  induction input generalizing s with
  | nil => exact iff_of_true ⟨_, rfl⟩ trivial
  | cons p rest ih =>
    obtain ⟨l, sys⟩ := p
    rw [session_cons, List.map_cons, Survivable]
    by_cases h : l.Runnable ∧ (s.second.isSome ∨ l.Piped)
    · obtain ⟨o, ho⟩ := round_ends_of hs h.1 h.2 sys
      obtain ⟨-, -, hends⟩ := round_ends hs ho
      rw [ho, ok_bind]
      rcases hends with ⟨hexits, rfl⟩ | ⟨hexits, t, rfl, ht, hsecond⟩
      · exact iff_of_true ⟨_, rfl⟩ ⟨h.1, h.2, Or.inl hexits⟩
      · rw [ih ht, hsecond]
        simp [h, hexits]
    · refine iff_of_false ?_ fun hsurv => h ⟨hsurv.1, hsurv.2.1⟩
      rintro ⟨o, ho⟩
      obtain ⟨o', ho', -⟩ := bind_eq_ok.mp ho
      obtain ⟨hl, hfilled, -⟩ := round_ends hs ho'
      exact h ⟨hl, hfilled⟩

/-- **The lines that the shell survives.**  From the first prompt on, each round ends
in a new prompt or in `exit` if and only if every line that is read, up to one that
runs `exit`, has a word in its first part and in its second, if it has one, and the
first line has two parts. -/
theorem survives_iff {s : Process} (hs : s.Start) (input : List (Line × System)) :
    (∃ o, session s input = .ok o) ↔ Survivable False (input.map Prod.fst) := by
  have h := session_ok_iff hs.ready input
  rw [hs.second] at h
  simpa using h

/-! ## Lines of each kind -/

/-- A new process, with the standard descriptors. -/
def newShell : Process where
  commands _ := ⟨[], by simp⟩
  size := 0
  second := none
  fds := {0, 1, 2}
  children := []
  output := []

theorem newShell_start : newShell.Start := ⟨fun _ => rfl, rfl, rfl, rfl, rfl⟩

/-- An operating system that grants everything. -/
def granting : System := ⟨some (3, 4), some 100, some 101, true, 0, 0⟩

/-- `"\n"` -/
def emptyLine : Line := ⟨⟨[10], by decide⟩, by decide, by decide, by decide⟩

/-- `"ls\n"` -/
def lsLine : Line := ⟨⟨[108, 115, 10], by decide⟩, by decide, by decide, by decide⟩

/-- `"ls | wc\n"` -/
def lsWcLine : Line :=
  ⟨⟨[108, 115, 32, 124, 32, 119, 99, 10], by decide⟩, by decide, by decide, by decide⟩

/-- `"exit\n"` -/
def exitLine : Line := ⟨⟨[101, 120, 105, 116, 10], by decide⟩, by decide, by decide, by decide⟩

/-- **Not every line is survived**: a first line with one part has `second` tokenized
unfilled, and later an empty line passes NULL to `strcpy`. -/
theorem not_survives : newShell.Start ∧
    session newShell [(lsLine, granting)] = .error .unfilled ∧
    session newShell [(lsWcLine, granting), (emptyLine, granting)] = .error .nullArgument :=
  ⟨newShell_start, rfl, rfl⟩

theorem survives_lsWc : newShell.Start ∧
    ∃ o, session newShell [(lsWcLine, granting), (exitLine, granting)] = .ok o :=
  ⟨newShell_start, (survives_iff newShell_start _).mpr
    ⟨⟨by decide, by decide⟩, Or.inr (by decide), Or.inr
      ⟨⟨by decide, by decide⟩, Or.inl trivial, Or.inl ⟨_, rfl, rfl⟩⟩⟩⟩

end Shell
end SystemsProjects
