import SystemsProjects.Shell.Session

/-!
# One round of the shell

What the functions of `shell.c` do to a process, said once for each of them, and
`round_eq_ok_iff`, which says what a round of the loop of `main` does when it reaches
its end: the line had one part or two, every part it used had a word, and the
buffer `second` had been filled.

A process is `Ready` when the arrays have room for what a round writes.  Every
round keeps that.
-/

namespace SystemsProjects
namespace Shell

open Lib

/-! ## Updates of a process -/

namespace Process

/-- The buffer `second` holds `text`. -/
def fill (s : Process) (text : CString) : Process := { s with second := some text }

/-- A name in the next row of `commands`. -/
def remember (s : Process) (name : CString) : Process :=
  { s with
    commands := Function.update s.commands s.size name
    size := (s.size + 1) % historySize }

@[simp] theorem print_size (s : Process) (m : Message) : (s.print m).size = s.size := rfl
@[simp] theorem print_second (s : Process) (m : Message) : (s.print m).second = s.second := rfl
@[simp] theorem print_fds (s : Process) (m : Message) : (s.print m).fds = s.fds := rfl
@[simp] theorem fill_size (s : Process) (t : CString) : (s.fill t).size = s.size := rfl
@[simp] theorem fill_second (s : Process) (t : CString) : (s.fill t).second = some t := rfl
@[simp] theorem fill_fds (s : Process) (t : CString) : (s.fill t).fds = s.fds := rfl
@[simp] theorem remember_second (s : Process) (n : CString) :
    (s.remember n).second = s.second := rfl
@[simp] theorem remember_fds (s : Process) (n : CString) : (s.remember n).fds = s.fds := rfl

theorem remember_size_lt (s : Process) (n : CString) : (s.remember n).size < historySize :=
  Nat.mod_lt _ (by decide)

/-- Only the descriptors, the children and the output may differ. -/
structure SameArrays (s t : Process) : Prop where
  commands : t.commands = s.commands
  size : t.size = s.size
  second : t.second = s.second

theorem SameArrays.refl (s : Process) : s.SameArrays s := ⟨rfl, rfl, rfl⟩

/-- Printing many messages touches the output only. -/
theorem foldl_print {α : Type} (f : Process → α → Message) (l : List α) (s : Process) :
    s.SameArrays (l.foldl (fun s a => s.print (f s a)) s) ∧
      (l.foldl (fun s a => s.print (f s a)) s).fds = s.fds := by
  induction l generalizing s with
  | nil => exact ⟨SameArrays.refl s, rfl⟩
  | cons a l ih =>
    obtain ⟨hsame, hfds⟩ := ih (s.print (f s a))
    exact ⟨⟨hsame.commands, hsame.size, hsame.second⟩, hfds⟩

/-- The arrays have room for what a round writes. -/
structure Ready (s : Process) : Prop where
  size : s.size < historySize
  second : ∀ t, s.second = some t → strlen t < bufferSize

theorem Start.ready {s : Process} (h : s.Start) : s.Ready where
  size := by
    rw [h.size]
    decide
  second t ht := by
    rw [h.second] at ht
    cases ht

end Process

/-! ## Copying and splitting -/

theorem strcpy_ok {s : CString} (h : strlen s < bufferSize) : strcpy s = .ok s := by
  rw [strcpy, if_pos h]
  rfl

theorem tokenize_ok {s : CString} (h : strlen s < bufferSize) :
    tokenize s = .ok (tokens isBlank s, afterStrtok isBlank s) := by
  rw [tokenize, if_pos ((length_tokens_le isBlank s).trans_lt h)]
  rfl

theorem record_nil (s : Process) : record [] s = .error .nullArgument := rfl

theorem record_cons {a : CString} {as : List CString} {s : Process}
    (ha : strlen a < bufferSize) (hs : s.size < historySize) :
    record (a :: as) s = .ok (s.remember a) := by
  simp only [record, List.head?_cons, nonNull, pure_eq_ok, ok_bind, strcpy_ok ha, if_pos hs]
  rfl

/-! ## Builtins and commands -/

/-- With a command name the builtins can be searched. -/
theorem findBuiltin_cons (a : CString) (as : List CString) (fs : List (CString × FunPtr)) :
    findBuiltin (a :: as) fs = .ok ((fs.find? fun f => f.1 = a).map Prod.snd) := by
  induction fs with
  | nil => rfl
  | cons f fs ih =>
    obtain ⟨name, function⟩ := f
    rw [findBuiltin, List.find?_cons]
    by_cases h : name = a
    · have hcmp : strcmp a name = 0 := strcmp_eq_zero_iff.mpr h.symm
      simp [nonNull, h ▸ hcmp, h]
    · have hcmp : ¬ strcmp a name = 0 := fun hc => h (strcmp_eq_zero_iff.mp hc).symm
      simp [nonNull, hcmp, h, ih]

/-- The function of the builtin with a name. -/
def builtinNamed (name : CString) : Option FunPtr :=
  (builtins.find? fun f => f.1 = name).map Prod.snd

theorem builtinNamed_cases (name : CString) :
    (builtinNamed name = none ∧ name ≠ exitName) ∨
      ∃ function, builtinNamed name = some function ∧ (name, function) ∈ builtins := by
  rw [builtinNamed]
  generalize h : (builtins.find? fun f => f.1 = name) = found
  rcases found with _ | ⟨name', function⟩
  · refine Or.inl ⟨rfl, fun hname => ?_⟩
    have := List.find?_eq_none.mp h (exitName, endShell) List.mem_cons_self
    exact this (by simpa using hname.symm)
  · have hname : name' = name := by simpa using List.find?_some h
    exact Or.inr ⟨function, rfl, hname ▸ List.mem_of_find?_eq_some h⟩

theorem checkBuiltins_cons (a : CString) (as : List CString) (sys : System) (s : Process) :
    checkBuiltins (a :: as) sys s = .ok ((builtinNamed a).map fun f => f (a :: as) sys s) := by
  rw [checkBuiltins, findBuiltin_cons, ok_bind, ← builtinNamed]
  cases builtinNamed a with
  | none => rfl
  | some function => rfl

/-- A builtin leaves the process, or prints. -/
theorem builtin_cases {name : CString} {function : FunPtr}
    (h : (name, function) ∈ builtins) (args : List CString) (sys : System) (s : Process) :
    (name = exitName ∧ function args sys s = .exit 1) ∨
      (name ≠ exitName ∧ ∃ t, function args sys s = .running t ∧ s.SameArrays t ∧
        t.fds = s.fds) := by
  simp only [builtins, List.mem_cons, List.not_mem_nil, or_false, Prod.mk.injEq] at h
  rcases h with ⟨rfl, rfl⟩ | ⟨rfl, rfl⟩ | ⟨rfl, rfl⟩ | ⟨rfl, rfl⟩
  · exact Or.inl ⟨rfl, rfl⟩
  · exact Or.inr ⟨by decide, _, rfl, ⟨rfl, rfl, rfl⟩, rfl⟩
  · refine Or.inr ⟨by decide, ?_⟩
    rw [cd]
    rcases args[1]? with _ | dir
    · exact ⟨_, rfl, ⟨rfl, rfl, rfl⟩, rfl⟩
    · rcases sys.chdir with _ | _
      · exact ⟨_, rfl, ⟨rfl, rfl, rfl⟩, rfl⟩
      · exact ⟨_, rfl, ⟨rfl, rfl, rfl⟩, rfl⟩
  · refine Or.inr ⟨by decide, _, rfl, ?_⟩
    obtain ⟨hsame, hfds⟩ := Process.foldl_print
      (fun t j => .command (t.commands j)) (List.range s.size) (s.print .history)
    exact ⟨⟨hsame.commands, hsame.size, hsame.second⟩, hfds⟩

theorem otherCommands_frame (sys : System) (s : Process) :
    s.SameArrays (otherCommands sys s) ∧ (otherCommands sys s).fds = s.fds := by
  rw [otherCommands]
  rcases sys.split1 with _ | pid
  · exact ⟨⟨rfl, rfl, rfl⟩, rfl⟩
  · exact ⟨⟨rfl, rfl, rfl⟩, rfl⟩

/-- **A line with one part**: `exit` ends the process, anything else leaves the
arrays and the descriptors as they are. -/
theorem handleInputs_cases (a : CString) (as : List CString) (sys : System) (s : Process) :
    (a = exitName ∧ handleInputs (a :: as) sys s = .ok (.exit 1)) ∨
      (a ≠ exitName ∧ ∃ t, handleInputs (a :: as) sys s = .ok (.running t) ∧
        s.SameArrays t ∧ t.fds = s.fds) := by
  rw [handleInputs, checkBuiltins_cons, ok_bind]
  rcases builtinNamed_cases a with ⟨hnone, hne⟩ | ⟨function, hsome, hmem⟩
  · rw [hnone]
    exact Or.inr ⟨hne, _, rfl, otherCommands_frame sys s⟩
  · rw [hsome]
    rcases builtin_cases hmem (a :: as) sys s with ⟨hexit, ho⟩ | ⟨hne, t, ho, ht⟩
    · exact Or.inl ⟨hexit, congrArg Except.ok ho⟩
    · exact Or.inr ⟨hne, t, congrArg Except.ok ho, ht⟩

/-- **A line with two parts** always comes back to the parent.  The descriptors it
is left with depend on how far it came. -/
theorem handleTwoInputs_ok (a b : CString) (as bs : List CString) (sys : System)
    (s : Process) :
    ∃ t, handleTwoInputs (a :: as) (b :: bs) sys s = .ok t ∧ s.SameArrays t ∧
      t.fds = match sys.pipe with
        | none => s.fds
        | some fd =>
          if sys.split1.isSome ∧ sys.split2.isSome then
            (insert fd.1 (insert fd.2 s.fds)).erase fd.2
          else insert fd.1 (insert fd.2 s.fds) := by
  rw [handleTwoInputs]
  rcases sys.pipe with _ | fd
  · exact ⟨_, rfl, ⟨rfl, rfl, rfl⟩, rfl⟩
  rcases sys.split1 with _ | pid
  · exact ⟨_, rfl, ⟨rfl, rfl, rfl⟩, rfl⟩
  simp only [firstChild, checkBuiltins_cons, ok_bind, pure_eq_ok]
  rcases sys.split2 with _ | pid'
  · exact ⟨_, rfl, ⟨rfl, rfl, rfl⟩, rfl⟩
  simp only [secondChild, checkBuiltins_cons, ok_bind, pure_eq_ok]
  exact ⟨_, rfl, ⟨rfl, rfl, rfl⟩, rfl⟩

/-! ## The round -/

/-- The process that a line with one part is run on. -/
def Process.oneCommand (s : Process) (second a : CString) : Process :=
  ((s.print .prompt).fill (afterStrtok isBlank second)).remember a

/-- The process that a line with two parts is run on. -/
def Process.twoCommands (s : Process) (second a b : CString) : Process :=
  (s.oneCommand second a).remember b

/-- A line with one part: the other buffer is split again. -/
theorem round_one {s : Process} {inputs split saved second : CString} (sys : System)
    (hsplit : strtok isPipe inputs = some (split, saved)) (hsaved : strtok isPipe saved = none)
    (hsecond : s.second = some second) (hfirst : strlen split < bufferSize)
    (hbuf : strlen second < bufferSize) :
    round inputs sys s =
      record (tokens isBlank split) ((s.print .prompt).fill (afterStrtok isBlank second)) >>=
        fun s => handleInputs (tokens isBlank split) sys s := by
  unfold round
  simp only [hsplit, hsaved, nonNull, pure_eq_ok, ok_bind, strcpy_ok hfirst, Option.map_none,
    Process.print_second, hsecond, tokenize_ok hfirst, tokenize_ok hbuf]
  rfl

/-- A line with two parts. -/
theorem round_two {s : Process} {inputs split saved second rest : CString} (sys : System)
    (hsplit : strtok isPipe inputs = some (split, saved))
    (hsaved : strtok isPipe saved = some (second, rest)) (hfirst : strlen split < bufferSize)
    (hbuf : strlen second < bufferSize) :
    round inputs sys s =
      record (tokens isBlank split) ((s.print .prompt).fill (afterStrtok isBlank second)) >>=
        fun s => record (tokens isBlank second) s >>=
          fun s => handleTwoInputs (tokens isBlank split) (tokens isBlank second) sys s >>=
            fun t => .ok (.running t) := by
  unfold round
  simp only [hsplit, hsaved, nonNull, pure_eq_ok, ok_bind, strcpy_ok hfirst, strcpy_ok hbuf,
    Option.map_some, tokenize_ok hfirst, tokenize_ok hbuf]
  rfl

/-- **What a round does when it reaches its end.** -/
theorem round_eq_ok_iff {s : Process} (hs : s.Ready) {inputs : CString}
    (hlen : strlen inputs < bufferSize) {sys : System} {o : Outcome} :
    round inputs sys s = .ok o ↔
      (∃ split saved second a as, strtok isPipe inputs = some (split, saved) ∧
        strtok isPipe saved = none ∧ s.second = some second ∧
        tokens isBlank split = a :: as ∧
        handleInputs (a :: as) sys (s.oneCommand second a) = .ok o) ∨
      (∃ split saved second rest a as b bs, strtok isPipe inputs = some (split, saved) ∧
        strtok isPipe saved = some (second, rest) ∧
        tokens isBlank split = a :: as ∧ tokens isBlank second = b :: bs ∧
        ∃ t, handleTwoInputs (a :: as) (b :: bs) sys (s.twoCommands second a b) = .ok t ∧
          o = .running t) := by
  rcases hsplit : strtok isPipe inputs with _ | ⟨split, saved⟩
  · simp [round, hsplit, nonNull]
  obtain ⟨hsplit_le, hsaved_lt⟩ := strlen_of_strtok hsplit
  have hfirst : strlen split < bufferSize := hsplit_le.trans_lt hlen
  have hword : ∀ {a as}, tokens isBlank split = a :: as → strlen a < bufferSize :=
    fun h => (strlen_le_of_mem_tokens (h ▸ List.mem_cons_self)).trans_lt hfirst
  rcases hsecond : strtok isPipe saved with _ | ⟨second, rest⟩
  · rcases hfilled : s.second with _ | second
    · simp [round, hsplit, hsecond, hfilled, nonNull, strcpy_ok hfirst, tokenize_ok hfirst]
    have hbuf := hs.second second hfilled
    rw [round_one sys hsplit hsecond hfilled hfirst hbuf]
    rcases hargs : tokens isBlank split with _ | ⟨a, as⟩
    · rw [record_nil, error_bind]
      simp [hargs]
    · rw [record_cons (s := (s.print .prompt).fill _) (hword hargs) hs.size, ok_bind]
      simp [Process.oneCommand, hsecond, hargs]
  · have hbuf : strlen second < bufferSize :=
      ((strlen_of_strtok hsecond).1.trans hsaved_lt.le).trans_lt hlen
    rw [round_two sys hsplit hsecond hfirst hbuf]
    rcases hargs : tokens isBlank split with _ | ⟨a, as⟩
    · rw [record_nil, error_bind]
      simp [hsecond, hargs]
    rw [record_cons (s := (s.print .prompt).fill _) (hword hargs) hs.size, ok_bind]
    rcases hargs2 : tokens isBlank second with _ | ⟨b, bs⟩
    · rw [record_nil, error_bind]
      simp [hsecond, hargs2]
    · have hb : strlen b < bufferSize :=
        (strlen_le_of_mem_tokens (hargs2 ▸ List.mem_cons_self)).trans_lt hbuf
      rw [record_cons hb (Process.remember_size_lt _ _), ok_bind, bind_eq_ok]
      simp [Process.twoCommands, Process.oneCommand, hsecond, hargs, hargs2, eq_comm]

end Shell
end SystemsProjects
