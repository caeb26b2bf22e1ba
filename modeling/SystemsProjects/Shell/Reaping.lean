import SystemsProjects.Shell.Descriptors

/-!
# The children of the shell

`otherCommands` waits once and `handleTwoInputs` waits twice, and `wait(NULL)` takes any
child that has ended.  So the pairing of forks and waits holds as long as no child is left
over from an earlier line: then the only children a `wait` can find are those of its own
line.

One path leaves a child over.  When the first `fork` of a line with two parts succeeds and
the second one fails, `handleTwoInputs` returns without a `wait`.  `reaped_iff` says that
it is the only one.

As in `Descriptors`, the process may be any that is `Launched`.
-/

namespace SystemsProjects
namespace Shell

open Lib

/-- The line has a second part, the first `fork` succeeds and the second one fails. -/
def LosesChild (i : Line × System) : Prop :=
  i.1.Piped ∧ i.2.pipe.isSome ∧ i.2.split1.isSome ∧ i.2.split2 = none

instance (i : Line × System) : Decidable (LosesChild i) :=
  inferInstanceAs (Decidable (_ ∧ _))

/-! ## Forks and waits -/

/-- Without children `wait` returns at once. -/
theorem Process.wait_none {s : Process} (h : s.children = []) (n : ℕ) :
    (s.wait n).children = [] := by
  unfold Process.wait
  rw [h]
  rfl

/-- **An only child** is the one that `wait` finds. -/
theorem Process.wait_only {s : Process} (h : s.children = []) (pid n : ℕ) :
    ((s.addChild pid).wait n).children = [] := by
  unfold Process.wait Process.addChild
  rw [h]
  show [pid].eraseIdx (n % 1) = []
  rw [Nat.mod_one]
  rfl

/-- Two children are found by two calls of `wait`, in any order. -/
theorem Process.wait_both {s : Process} {pid pid' : ℕ} (h : s.children = [pid', pid])
    (m n : ℕ) : ((s.wait m).wait n).children = [] := by
  have hfirst : (s.wait m).children.length = 1 := by
    show (s.children.eraseIdx (m % s.children.length)).length = 1
    rw [h]
    exact List.length_eraseIdx_of_lt (Nat.mod_lt m (Nat.succ_pos 1))
  refine List.length_eq_zero_iff.mp ?_
  show ((s.wait m).children.eraseIdx (n % (s.wait m).children.length)).length = 0
  rw [hfirst, Nat.mod_one, List.length_eraseIdx_of_lt (by omega), hfirst]

theorem otherCommands_children {s : Process} (h : s.children = []) (sys : System) :
    (otherCommands sys s).children = [] := by
  unfold otherCommands
  rcases sys.split1 with _ | pid
  · exact Process.wait_none h _
  · exact Process.wait_only h pid _

/-! ## What the builtins touch -/

/-- Printing recorded commands changes the output only. -/
theorem foldl_print_command (l : List ℕ) (s : Process) :
    l.foldl (fun s j => s.print (.command (s.commands j))) s =
      { s with output := s.output ++ l.map fun j => .command (s.commands j) } := by
  induction l generalizing s with
  | nil => simp
  | cons j l ih =>
    rw [List.foldl_cons, ih, List.map_cons]
    simp [Process.print]

/-- **`history`** prints the rows in front of `size`. -/
theorem history_eq (args : List CString) (sys : System) (s : Process) :
    history args sys s = .running { s with
      output := s.output ++ .history ::
        (List.range s.size).map fun j => .command (s.commands j) } := by
  unfold history
  rw [foldl_print_command]
  simp [Process.print]

theorem builtin_children {name : CString} {function : FunPtr}
    (h : (name, function) ∈ builtins) {args : List CString} {sys : System} {s t : Process}
    (ht : function args sys s = .running t) : t.children = s.children := by
  simp only [builtins, List.mem_cons, List.not_mem_nil, or_false, Prod.mk.injEq] at h
  rcases h with ⟨-, rfl⟩ | ⟨-, rfl⟩ | ⟨-, rfl⟩ | ⟨-, rfl⟩
  · cases ht
  · cases ht
    rfl
  · unfold cd at ht
    rcases hdir : args[1]? with _ | dir
    · rw [hdir] at ht
      cases ht
      rfl
    · rw [hdir] at ht
      cases ht
      split <;> rfl
  · rw [history_eq] at ht
    cases ht
    rfl

/-! ## One round -/

/-- A line with one part. -/
theorem handleInputs_children {a : CString} {as : List CString} {sys : System} {s t : Process}
    (hs : s.children = []) (h : handleInputs (a :: as) sys s = .ok (.running t)) :
    t.children = [] := by
  rw [handleInputs, checkBuiltins_cons, ok_bind] at h
  rcases builtinNamed_cases a with ⟨hnone, -⟩ | ⟨function, hsome, hmem⟩
  · rw [hnone] at h
    cases h
    exact otherCommands_children hs sys
  · rw [hsome] at h
    rw [builtin_children hmem (Except.ok.inj h)]
    exact hs

/-- A line with two parts: both children are waited for, or none was forked, or the first
one is left over. -/
theorem handleTwoInputs_children {a b : CString} {as bs : List CString} {sys : System}
    {s t : Process} (hs : s.children = [])
    (h : handleTwoInputs (a :: as) (b :: bs) sys s = .ok t) :
    t.children = [] ↔ ¬ (sys.pipe.isSome ∧ sys.split1.isSome ∧ sys.split2 = none) := by
  unfold handleTwoInputs at h
  rcases hpipe : sys.pipe with _ | fd
  · rw [hpipe] at h
    cases h
    exact iff_of_true hs fun hc => Bool.noConfusion hc.1
  rcases hsplit1 : sys.split1 with _ | pid
  · rw [hpipe, hsplit1] at h
    cases h
    exact iff_of_true hs fun hc => Bool.noConfusion hc.2.1
  rw [hpipe, hsplit1] at h
  simp only [firstChild, checkBuiltins_cons, ok_bind, pure_eq_ok] at h
  rcases hsplit2 : sys.split2 with _ | pid'
  · rw [hsplit2] at h
    cases h
    exact iff_of_false (List.cons_ne_nil pid s.children) fun hc => hc ⟨rfl, rfl, rfl⟩
  · rw [hsplit2] at h
    simp only [secondChild, checkBuiltins_cons, ok_bind, pure_eq_ok] at h
    cases h
    refine iff_of_true (Process.wait_both (?_ : _ = [pid', pid]) _ _) fun hc => ?_
    · exact congrArg (fun l => pid' :: pid :: l) hs
    · exact absurd hc.2.2 (Option.some_ne_none pid')

/-- **One round** from a prompt without children. -/
theorem step_children {s t : Process} (hs : s.Ready) (hc : s.children = [])
    {i : Line × System} {o : Unit} (h : Step s i o t) :
    t.children = [] ↔ ¬ LosesChild i := by
  rcases (round_eq_ok_iff hs i.1.lt_bufferSize).mp h.2 with
    ⟨split, saved, second, a, as, hsplit, hsaved, -, -, hrun⟩ |
    ⟨split, saved, second, rest, a, as, b, bs, hsplit, hsaved, -, -, u, hrun, hu⟩
  · refine iff_of_true (handleInputs_children (s := s.oneCommand second a) hc hrun) fun hl => ?_
    have hpiped := hl.1
    rw [Line.Piped, segments_one hsplit hsaved] at hpiped
    simp at hpiped
  · obtain rfl : t = u := by
      cases hu
      rfl
    have hpiped : i.1.Piped := by
      rw [Line.Piped, segments_two hsplit hsaved]
      exact Nat.le_add_left 2 _
    rw [handleTwoInputs_children (s := s.twoCommands second a b) hc hrun, LosesChild]
    exact not_congr (and_iff_right hpiped).symm

/-! ## Sessions -/

/-- The prompts of a run, up to the first line that loses a child. -/
theorem reaped_of_run {s t : Process} {tr : List ((Line × System) × Unit)} (hs : s.Ready)
    (hc : s.children = []) (h : Run Step s tr t) (hall : ∀ e ∈ tr, ¬ LosesChild e.1) :
    t.children = [] := by
  induction h with
  | nil => exact hc
  | cons hstep _ ih =>
    exact ih (step_ready hs hstep)
      ((step_children hs hc hstep).mpr (hall _ List.mem_cons_self))
      fun e he => hall e (List.mem_cons_of_mem _ he)

/-- **Every child has been waited for at every prompt** of a session if and only if no line
of it has had its first `fork` succeed and its second one fail. -/
theorem reaped_iff {s t : Process} {tr : List ((Line × System) × Unit)} (hs : s.Launched)
    (h : Run Step s tr t) :
    (∀ tr₁ tr₂ u, tr = tr₁ ++ tr₂ → Run Step s tr₁ u → u.children = []) ↔
      ∀ e ∈ tr, ¬ LosesChild e.1 := by
  constructor
  · intro hreaped
    have hready := hs.ready
    have hc := hs.children
    clear hs
    induction h with
    | nil => exact fun e he => absurd he List.not_mem_nil
    | @cons s u t i o tr hstep hrest ih =>
      have hu : u.children = [] := hreaped [(i, o)] tr u rfl (Run.cons hstep (Run.nil u))
      refine List.forall_mem_cons.mpr ⟨(step_children hready hc hstep).mp hu, ?_⟩
      refine ih (fun tr₁ tr₂ v htr hv => ?_) (step_ready hready hstep) hu
      exact hreaped ((i, o) :: tr₁) tr₂ v (by rw [htr]; rfl) (Run.cons hstep hv)
  · rintro hall tr₁ tr₂ u rfl hrun
    exact reaped_of_run hs.ready hs.children hrun fun e he => hall e (List.mem_append_left tr₂ he)

/-- An operating system that refuses the second `fork` of a line. -/
def forkingOnce : System := { granting with split2 := none }

theorem forkingOnce_fresh : forkingOnce.Fresh newShell := granting_fresh

/-- Two programs and a pipe, every child reaped. -/
theorem reaped_lsWc : newShell.Launched ∧
    ∀ tr₁ tr₂ u, [((lsWcLine, granting), ()), ((lsLine, refusing), ())] = tr₁ ++ tr₂ →
      Run Step newShell tr₁ u → u.children = [] :=
  ⟨newShell_start.launched, (reaped_iff newShell_start.launched
    (Run.cons ⟨granting_fresh, rfl⟩ (Run.cons ⟨refusing_fresh _, rfl⟩ (Run.nil _)))).mpr
    (by decide)⟩

/-- **Not every child has been waited for**: the second `fork` of `ls | wc` fails, and the
first child is still there at the next prompt. -/
theorem not_reaped : newShell.Launched ∧
    ∃ t, Run Step newShell [((lsWcLine, forkingOnce), ())] t ∧ t.children = [100] ∧
      t.children ≠ [] :=
  ⟨newShell_start.launched, _, Run.cons ⟨forkingOnce_fresh, rfl⟩ (Run.nil _), rfl, by decide⟩

end Shell
end SystemsProjects
