import SystemsProjects.Shell.Reaping

/-!
# What `history` prints

`commands` is a circular buffer of 128 rows, and `size` is the row that the next name goes
to, modulo 128.  `Remembers` is the invariant: row `k % 128` holds the `k`-th recorded name,
for the last 128 of them.

`history` takes the same `size` for the number of the names.  That is right as long as it has
not been reduced.  After 128 names it prints none, and after that as many as have been
written since the last time round.  `history_window_iff` compares this with the window of the
last 128 names.
-/

namespace SystemsProjects
namespace Shell

open Lib

/-! ## The last command of a line -/

/-- A round up to the place where the commands are handled: the words of the two parts and
the process, which has recorded their names. -/
def commandsOf (inputs : CString) (s : Process) :
    Except Fault (List CString × Option (List CString) × Process) := do
  let s := s.print .prompt
  let (split, saved) ← nonNull (strtok isPipe inputs)
  let first ← strcpy split
  let split := (strtok isPipe saved).map Prod.fst
  let second ← match split with
    | none => pure s.second
    | some split => do pure (some (← strcpy split))
  let (args1, _) ← tokenize first
  let (args2, second) ← match second with
    | none => Except.error .unfilled
    | some second => tokenize second
  let s ← record args1 { s with second := some second }
  match split with
  | none => pure (args1, none, s)
  | some _ => do
    let s ← record args2 s
    pure (args1, some args2, s)

/-- The rest of the round. -/
def handleCommands (sys : System) :
    List CString × Option (List CString) × Process → Except Fault Outcome
  | (args1, none, s) => handleInputs args1 sys s
  | (args1, some args2, s) => do pure (.running (← handleTwoInputs args1 args2 sys s))

/-- What the builtin of the second child leads to. -/
def secondOutcome (fd : ℕ × ℕ) (args2 : List CString) (sys : System) (s : Process) :
    Except Fault (Option Outcome) :=
  checkBuiltins args2 sys ((s.dup2 fd.1 0).close fd.1)

/-- What the last command of a line leads to if it is a builtin, in the process that runs
it: the shell, or the second child of a line with two parts. -/
def lastOutcome (inputs : CString) (sys : System) (s : Process) :
    Except Fault (Option Outcome) := do
  match ← commandsOf inputs s with
  | (args1, none, s) => checkBuiltins args1 sys s
  | (_, some args2, s) =>
    match sys.pipe, sys.split1, sys.split2 with
    | some fd, some pid, some _ =>
      let s := { s with fds := insert fd.1 (insert fd.2 s.fds) }
      secondOutcome fd args2 sys ((s.addChild pid).close fd.2).child
    | _, _, _ => pure none

/-- A round handles the commands of its line. -/
theorem round_eq (inputs : CString) (sys : System) (s : Process) :
    round inputs sys s = commandsOf inputs s >>= handleCommands sys := by
  unfold round commandsOf
  simp only [bind_assoc]
  refine bind_congr fun p => bind_congr fun first => ?_
  rcases (strtok isPipe p.2).map Prod.fst with _ | split
  · simp only [bind_assoc, pure_eq_ok, ok_bind]
    refine bind_congr fun args => ?_
    rcases (s.print .prompt).second with _ | second
    · rfl
    · simp only [bind_assoc, ok_bind, handleCommands]
  · simp only [bind_assoc, pure_eq_ok, ok_bind, handleCommands]

variable {s t u : Process} {l : Line} {sys : System} {split saved second rest a b : CString}
  {as bs : List CString} {names : List (List UInt8)}

/-- A line with one part, which has a word. -/
theorem commandsOf_one (hs : s.Ready) (hsplit : strtok isPipe l.inputs = some (split, saved))
    (hsaved : strtok isPipe saved = none) (hsecond : s.second = some second)
    (hargs : tokens isBlank split = a :: as) :
    commandsOf l.inputs s = .ok (a :: as, none, s.oneCommand second a) := by
  have hfirst : strlen split < bufferSize :=
    (strlen_of_strtok hsplit).1.trans_lt l.lt_bufferSize
  have ha : strlen a < bufferSize :=
    (strlen_le_of_mem_tokens (hargs ▸ List.mem_cons_self)).trans_lt hfirst
  have hcommands : commandsOf l.inputs s =
      record (a :: as) ((s.print .prompt).fill (afterStrtok isBlank second)) >>=
        fun s => .ok (a :: as, none, s) := by
    unfold commandsOf
    simp only [hsplit, hsaved, nonNull, pure_eq_ok, ok_bind, strcpy_ok hfirst, Option.map_none,
      Process.print_second, hsecond, tokenize_ok hfirst, tokenize_ok (hs.second second hsecond),
      hargs]
    rfl
  rw [hcommands, record_cons (s := (s.print .prompt).fill _) ha hs.size, ok_bind]
  rfl

/-- A line with two parts, which have a word each. -/
theorem commandsOf_two (hs : s.Ready) (hsplit : strtok isPipe l.inputs = some (split, saved))
    (hsaved : strtok isPipe saved = some (second, rest)) (hargs : tokens isBlank split = a :: as)
    (hargs2 : tokens isBlank second = b :: bs) :
    commandsOf l.inputs s = .ok (a :: as, some (b :: bs), s.twoCommands second a b) := by
  have hfirst : strlen split < bufferSize :=
    (strlen_of_strtok hsplit).1.trans_lt l.lt_bufferSize
  have hbuf : strlen second < bufferSize :=
    ((strlen_of_strtok hsaved).1.trans (strlen_of_strtok hsplit).2.le).trans_lt l.lt_bufferSize
  have ha : strlen a < bufferSize :=
    (strlen_le_of_mem_tokens (hargs ▸ List.mem_cons_self)).trans_lt hfirst
  have hb : strlen b < bufferSize :=
    (strlen_le_of_mem_tokens (hargs2 ▸ List.mem_cons_self)).trans_lt hbuf
  have hcommands : commandsOf l.inputs s =
      record (a :: as) ((s.print .prompt).fill (afterStrtok isBlank second)) >>=
        fun s => record (b :: bs) s >>= fun s => .ok (a :: as, some (b :: bs), s) := by
    unfold commandsOf
    simp only [hsplit, hsaved, nonNull, pure_eq_ok, ok_bind, strcpy_ok hfirst, strcpy_ok hbuf,
      Option.map_some, tokenize_ok hfirst, tokenize_ok hbuf, hargs, hargs2]
    rfl
  rw [hcommands, record_cons (s := (s.print .prompt).fill _) ha hs.size, ok_bind,
    record_cons hb (Process.remember_size_lt _ _), ok_bind]
  rfl

/-! ## The circular buffer -/

/-- The names that a line records. -/
def Line.commandNames (l : Line) : List (List UInt8) :=
  (l.segments.take 2).filterMap fun segment => (fields isBlank segment).head?

/-- The names that the lines of a run have recorded, the oldest first. -/
def recorded (tr : List ((Line × System) × Unit)) : List (List UInt8) :=
  tr.flatMap fun e => e.1.1.commandNames

/-- **The buffer after `names` have been recorded.** -/
structure Remembers (s : Process) (names : List (List UInt8)) : Prop where
  size : s.size = names.length % historySize
  row : ∀ (k : ℕ) (name : List UInt8), names[k]? = some name → names.length ≤ k + historySize →
    (s.commands (k % historySize)).bytes = name

theorem names_one (hsplit : strtok isPipe l.inputs = some (split, saved))
    (hsaved : strtok isPipe saved = none) (hargs : tokens isBlank split = a :: as) :
    l.commandNames = [a.bytes] := by
  unfold Line.commandNames
  rw [segments_one hsplit hsaved]
  simp [head_fields_eq hargs]

theorem names_two (hsplit : strtok isPipe l.inputs = some (split, saved))
    (hsaved : strtok isPipe saved = some (second, rest)) (hargs : tokens isBlank split = a :: as)
    (hargs2 : tokens isBlank second = b :: bs) : l.commandNames = [a.bytes, b.bytes] := by
  unfold Line.commandNames
  rw [segments_two hsplit hsaved]
  simp [head_fields_eq hargs, head_fields_eq hargs2]

namespace Remembers

theorem of_sameArrays (h : Remembers s names) (hst : s.SameArrays t) : Remembers t names where
  size := hst.size ▸ h.size
  row := hst.commands ▸ h.row

/-- **One more name.**  It takes the row of the name that is 128 places older. -/
theorem remember (h : Remembers s names) (a : CString) :
    Remembers (s.remember a) (names ++ [a.bytes]) where
  size := by
    show (s.size + 1) % historySize = _
    rw [h.size, Nat.mod_add_mod, List.length_append]
    rfl
  row k name hname hk := by
    rw [List.length_append, List.length_singleton] at hk
    show (Function.update s.commands s.size a (k % historySize)).bytes = name
    rcases Nat.lt_trichotomy k names.length with hlt | rfl | hgt
    · rw [List.getElem?_append_left hlt] at hname
      have hne : k % historySize ≠ s.size := by
        rw [h.size]
        unfold historySize at hk ⊢
        omega
      rw [Function.update_of_ne hne]
      exact h.row k name hname (by omega)
    · rw [List.getElem?_concat_length] at hname
      rw [← h.size, Function.update_self]
      exact Option.some.inj hname
    · rw [List.getElem?_eq_none (by simp; omega)] at hname
      cases hname

/-- **What the loop of `history` finds**: the names since the counter was last 0. -/
theorem rows_eq (h : Remembers s names) :
    (List.range s.size).map (fun j => (s.commands j).bytes) =
      names.drop (names.length - names.length % historySize) := by
  have hpos : names.length % historySize ≤ names.length := Nat.mod_le _ _
  have hlt : names.length % historySize < historySize := Nat.mod_lt _ (by decide)
  rw [h.size]
  refine List.ext_getElem (by simp; omega) fun j hj _ => ?_
  rw [List.length_map, List.length_range] at hj
  rw [List.getElem_map, List.getElem_range, List.getElem_drop]
  have hk : (names.length - names.length % historySize + j) % historySize = j := by
    unfold historySize at hj hlt ⊢
    omega
  have hrow := h.row (names.length - names.length % historySize + j) _
    (List.getElem?_eq_getElem (by omega)) (by omega)
  rw [hk] at hrow
  exact hrow

end Remembers

/-! ## Runs -/

theorem remembers_nil (h : s.size = 0) : Remembers s [] where
  size := h
  row k name hname := by
    cases hname

/-- **One round** records the names of its line. -/
theorem Remembers.step (h : Remembers s names) (hs : s.Ready) {i : Line × System} {o : Unit}
    (hstep : Step s i o t) : Remembers t (names ++ i.1.commandNames) := by
  rcases (round_eq_ok_iff hs i.1.lt_bufferSize).mp hstep.2 with
    ⟨split, saved, second, a, as, hsplit, hsaved, -, hargs, hrun⟩ |
    ⟨split, saved, second, rest, a, as, b, bs, hsplit, hsaved, hargs, hargs2, u, hrun, hu⟩
  · have hprocess : Remembers (s.oneCommand second a) (names ++ [a.bytes]) :=
      Remembers.remember (s := (s.print .prompt).fill _) ⟨h.size, h.row⟩ a
    rw [names_one hsplit hsaved hargs]
    rcases handleInputs_cases a as i.2 (s.oneCommand second a) with
      ⟨-, hexit⟩ | ⟨-, u, hu, hsame, -⟩
    · rw [hexit] at hrun
      cases hrun
    · rw [hu] at hrun
      cases hrun
      exact hprocess.of_sameArrays hsame
  · have hprocess : Remembers (s.oneCommand second a) (names ++ [a.bytes]) :=
      Remembers.remember (s := (s.print .prompt).fill _) ⟨h.size, h.row⟩ a
    have hboth := hprocess.remember b
    rw [List.append_assoc] at hboth
    rw [names_two hsplit hsaved hargs hargs2]
    obtain ⟨u', hu', hsame, -⟩ := handleTwoInputs_ok a b as bs i.2 (s.twoCommands second a b)
    rw [hu'] at hrun
    cases hrun
    cases hu
    exact hboth.of_sameArrays hsame

theorem remembers_of_run {tr : List ((Line × System) × Unit)} (hs : s.Ready)
    (hr : Remembers s names) (h : Run Step s tr t) :
    t.Ready ∧ Remembers t (names ++ recorded tr) := by
  induction h generalizing names with
  | nil =>
    rw [recorded, List.flatMap_nil, List.append_nil]
    exact ⟨hs, hr⟩
  | cons hstep _ ih =>
    have hrest := ih (step_ready hs hstep) (hr.step hs hstep)
    rw [List.append_assoc] at hrest
    exact hrest

/-! ## The window -/

/-- The last 128 names: in order as long as there are no more, then in some rotation. -/
def HistoryWindow (names printed : List (List UInt8)) : Prop :=
  if names.length ≤ historySize then printed = names
  else ∃ k, printed = (names.drop (names.length - historySize)).rotate k

/-- The last command of the line prints the window of `names`. -/
def PrintsWindow (s : Process) (l : Line) (sys : System) (names : List (List UInt8)) : Prop :=
  ∃ (t : Process) (printed : List CString),
    lastOutcome l.inputs sys s = .ok (some (.running t)) ∧
    t.output = s.output ++ .prompt :: .history :: printed.map .command ∧
    HistoryWindow names (printed.map CString.bytes)

theorem historyWindow_drop_iff (names : List (List UInt8)) :
    HistoryWindow names (names.drop (names.length - names.length % historySize)) ↔
      names.length < historySize := by
  have hlength : (names.drop (names.length - names.length % historySize)).length =
      names.length % historySize := by
    have hle := Nat.mod_le names.length historySize
    rw [List.length_drop]
    omega
  have hmod : names.length % historySize < historySize := Nat.mod_lt _ (by decide)
  constructor
  · intro hwindow
    unfold HistoryWindow at hwindow
    split at hwindow
    · rename_i hle
      rw [hwindow] at hlength
      omega
    · rename_i hgt
      obtain ⟨k, hk⟩ := hwindow
      rw [hk, List.length_rotate, List.length_drop] at hlength
      omega
  · intro hlt
    unfold HistoryWindow
    rw [if_pos hlt.le, Nat.mod_eq_of_lt hlt, Nat.sub_self, List.drop_zero]

/-- The second child has the arrays and the output of the shell. -/
theorem lastOutcome_two (h : commandsOf l.inputs s = .ok (as, some bs, t))
    (hforks : sys.pipe.isSome ∧ sys.split1.isSome ∧ sys.split2.isSome) :
    ∃ p : Process, t.SameArrays p ∧ p.output = t.output ∧
      lastOutcome l.inputs sys s = checkBuiltins bs sys p := by
  obtain ⟨hpipe, hsplit1, hsplit2⟩ := hforks
  obtain ⟨fd, hfd⟩ := Option.isSome_iff_exists.mp hpipe
  obtain ⟨pid, hpid⟩ := Option.isSome_iff_exists.mp hsplit1
  obtain ⟨pid', hpid'⟩ := Option.isSome_iff_exists.mp hsplit2
  have hdup : ∀ q : Process, q.SameArrays ((q.dup2 fd.1 0).close fd.1) ∧
      ((q.dup2 fd.1 0).close fd.1).output = q.output := by
    intro q
    unfold Process.dup2
    split
    · exact ⟨⟨rfl, rfl, rfl⟩, rfl⟩
    · exact ⟨⟨rfl, rfl, rfl⟩, rfl⟩
  obtain ⟨hsame, houtput⟩ := hdup
    ((({ t with fds := insert fd.1 (insert fd.2 t.fds) } : Process).addChild pid).close fd.2).child
  refine ⟨_, ⟨hsame.commands, hsame.size, hsame.second⟩, houtput, ?_⟩
  rw [lastOutcome, h, ok_bind]
  simp only [hfd, hpid, hpid']
  rfl

/-- A process in which `history` is the last command prints its rows. -/
theorem lastOutcome_eq (hs : s.Ready) (hr : Remembers s names) (hl : l.Runnable)
    (hfilled : s.second.isSome ∨ l.Piped)
    (hforks : l.Piped → sys.pipe.isSome ∧ sys.split1.isSome ∧ sys.split2.isSome)
    (hlast : l.commandNames.getLast? = some historyName.bytes) :
    ∃ p : Process, Remembers p (names ++ l.commandNames) ∧ p.output = s.output ++ [.prompt] ∧
      ∃ args, lastOutcome l.inputs sys s = .ok (some (history args sys p)) := by
  have hbuiltin : builtinNamed historyName = some history := rfl
  rcases hsplit : strtok isPipe l.inputs with _ | ⟨split, saved⟩
  · exact absurd (segments_none hsplit) hl.nonempty
  rcases hsaved : strtok isPipe saved with _ | ⟨second, rest⟩
  · have hseg := segments_one hsplit hsaved
    have hword := hl.words split.bytes (by simp [hseg])
    obtain ⟨a, as, hargs⟩ := List.exists_cons_of_ne_nil (hasWord_iff.mp hword)
    obtain ⟨second, hsecond⟩ : ∃ second, s.second = some second := by
      refine Option.isSome_iff_exists.mp (hfilled.resolve_right fun h => ?_)
      rw [Line.Piped, hseg] at h
      simp at h
    rw [names_one hsplit hsaved hargs] at hlast ⊢
    obtain rfl : a = historyName := by
      cases a
      cases hlast
      rfl
    refine ⟨s.oneCommand second historyName, ?_, rfl, historyName :: as, ?_⟩
    · exact Remembers.remember (s := (s.print .prompt).fill _) ⟨hr.size, hr.row⟩ _
    · rw [lastOutcome, commandsOf_one hs hsplit hsaved hsecond hargs, ok_bind]
      dsimp only
      rw [checkBuiltins_cons, hbuiltin]
      rfl
  · have hseg := segments_two hsplit hsaved
    have hword := hl.words split.bytes (by simp [hseg])
    have hword2 := hl.words second.bytes (by simp [hseg])
    obtain ⟨a, as, hargs⟩ := List.exists_cons_of_ne_nil (hasWord_iff.mp hword)
    obtain ⟨b, bs, hargs2⟩ := List.exists_cons_of_ne_nil (hasWord_iff.mp hword2)
    rw [names_two hsplit hsaved hargs hargs2] at hlast ⊢
    obtain rfl : b = historyName := by
      cases b
      cases hlast
      rfl
    have hboth : Remembers (s.twoCommands second a historyName)
        (names ++ [a.bytes, historyName.bytes]) := by
      have hprocess : Remembers (s.oneCommand second a) (names ++ [a.bytes]) :=
        Remembers.remember (s := (s.print .prompt).fill _) ⟨hr.size, hr.row⟩ a
      have hnext := hprocess.remember historyName
      rw [List.append_assoc] at hnext
      exact hnext
    obtain ⟨p, hsame, houtput, hcall⟩ := lastOutcome_two
      (commandsOf_two hs hsplit hsaved hargs hargs2) (hforks (by simp [Line.Piped, hseg]))
    refine ⟨p, hboth.of_sameArrays hsame, houtput, historyName :: bs, ?_⟩
    rw [hcall, checkBuiltins_cons, hbuiltin]
    rfl

theorem printsWindow_iff (hs : s.Ready) (hr : Remembers s names) (hl : l.Runnable)
    (hfilled : s.second.isSome ∨ l.Piped)
    (hforks : l.Piped → sys.pipe.isSome ∧ sys.split1.isSome ∧ sys.split2.isSome)
    (hlast : l.commandNames.getLast? = some historyName.bytes) :
    PrintsWindow s l sys (names ++ l.commandNames) ↔
      (names ++ l.commandNames).length < historySize := by
  obtain ⟨p, hp, houtput, args, hcall⟩ := lastOutcome_eq hs hr hl hfilled hforks hlast
  rw [history_eq] at hcall
  rw [← historyWindow_drop_iff, ← hp.rows_eq]
  constructor
  · rintro ⟨t, printed, ht, hprinted, hwindow⟩
    rw [hcall] at ht
    cases ht
    dsimp only at hprinted
    rw [houtput, List.append_assoc] at hprinted
    have hrows := (List.cons.inj (List.cons.inj (List.append_cancel_left hprinted)).2).2
    have hmap : (List.range p.size).map p.commands = printed := by
      have hinj : Function.Injective Message.command := fun _ _ h => Message.command.inj h
      refine hinj.list_map ?_
      rw [List.map_map]
      exact hrows
    rw [← hmap, List.map_map] at hwindow
    exact hwindow
  · intro hwindow
    refine ⟨_, (List.range p.size).map p.commands, hcall, ?_, ?_⟩
    · dsimp only
      rw [houtput, List.append_assoc, List.map_map]
      rfl
    · rw [List.map_map]
      exact hwindow

/-- **What `history` prints as the last command** of a session is the window of the last 128
names if and only if fewer than 128 have been recorded. -/
theorem history_window_iff {tr : List ((Line × System) × Unit)} (hs : s.Launched)
    (h : Run Step s tr u) (hl : l.Runnable) (hfilled : u.second.isSome ∨ l.Piped)
    (hforks : l.Piped → sys.pipe.isSome ∧ sys.split1.isSome ∧ sys.split2.isSome)
    (hlast : l.commandNames.getLast? = some historyName.bytes) :
    PrintsWindow u l sys (recorded tr ++ l.commandNames) ↔
      (recorded tr ++ l.commandNames).length < historySize := by
  obtain ⟨hready, hr⟩ := remembers_of_run hs.ready (remembers_nil hs.size) h
  rw [List.nil_append] at hr
  exact printsWindow_iff hready hr hl hfilled hforks hlast

/-! ## Short and long sessions -/

/-- `"history\n"` -/
def historyLine : Line :=
  ⟨⟨[104, 105, 115, 116, 111, 114, 121, 10], by decide⟩, by decide, by decide, by decide⟩

/-- After `ls | wc` three names are printed. -/
theorem history_window_three : ∃ u, Run Step newShell [((lsWcLine, refusing), ())] u ∧
    PrintsWindow u historyLine granting
      (recorded [((lsWcLine, refusing), ())] ++ historyLine.commandNames) := by
  have hrun : Run Step newShell [((lsWcLine, refusing), ())] _ :=
    Run.cons ⟨refusing_fresh _, rfl⟩ (Run.nil _)
  exact ⟨_, hrun, (history_window_iff newShell_start.launched hrun ⟨by decide, by decide⟩
    (Or.inl rfl) (fun _ => ⟨rfl, rfl, rfl⟩) (by decide)).mpr (by decide)⟩

/-- `ls | wc`, any number of times. -/
theorem run_lsWc (n : ℕ) : ∀ {s : Process}, s.Ready → s.second.isSome →
    ∃ u, Run Step s (List.replicate n ((lsWcLine, refusing), ())) u ∧ u.second.isSome := by
  have hexits : ¬ lsWcLine.Exits := by
    rintro ⟨segment, hsegment, -⟩
    have htwo : lsWcLine.segments.length = 2 := by decide
    rw [hsegment] at htwo
    cases htwo
  induction n with
  | zero => exact fun {s} _ hsecond => ⟨s, Run.nil s, hsecond⟩
  | succ n ih =>
    intro s hs hsecond
    obtain ⟨o, ho⟩ := round_ends_of hs (l := lsWcLine) ⟨by decide, by decide⟩ (Or.inl hsecond)
      refusing
    obtain ⟨-, -, ⟨hexit, -⟩ | ⟨-, t, rfl, ht, htsecond⟩⟩ := round_ends hs ho
    · exact absurd hexit hexits
    · obtain ⟨u, hu, husecond⟩ := ih ht htsecond
      exact ⟨u, Run.cons ⟨refusing_fresh s, ho⟩ hu, husecond⟩

theorem length_recorded_lsWc (n : ℕ) :
    (recorded (List.replicate n ((lsWcLine, refusing), ()))).length = n * 2 := by
  have htwo : lsWcLine.commandNames.length = 2 := by decide
  unfold recorded
  simp [List.length_flatMap, htwo]

/-- **The window is not always printed**: the 129th name is that of `history` itself, and it
is the only one that is printed. -/
theorem not_history_window : filledShell.Launched ∧
    ∃ u, Run Step filledShell (List.replicate 64 ((lsWcLine, refusing), ())) u ∧
      ¬ PrintsWindow u historyLine granting
        (recorded (List.replicate 64 ((lsWcLine, refusing), ())) ++ historyLine.commandNames) := by
  obtain ⟨u, hu, husecond⟩ := run_lsWc 64 filledShell_launched.ready rfl
  obtain ⟨hready, hr⟩ := remembers_of_run filledShell_launched.ready (remembers_nil rfl) hu
  refine ⟨filledShell_launched, u, hu, fun hwindow => ?_⟩
  have hlength := (printsWindow_iff hready hr ⟨by decide, by decide⟩ (Or.inl husecond)
    (fun _ => ⟨rfl, rfl, rfl⟩) (by decide)).mp hwindow
  rw [List.nil_append, List.length_append, length_recorded_lsWc] at hlength
  exact absurd hlength (by decide)

end Shell
end SystemsProjects
