import SystemsProjects.Shell.Survival

/-!
# The open descriptors of the shell

`handleTwoInputs` opens two descriptors with `pipe`.  The parent closes the second one
behind the second `fork`, and none of them when a `fork` fails; the first is never
closed.  So a prompt behind such a line sees more open descriptors than the prompt
before it, and `fds_kept_iff` says that these lines are the only ones.

The results are about a process that is `Launched`: the buffer `second`, which a line with
one part has tokenized as it is, may be unfilled, or hold what happens to lie on the stack.
-/

namespace SystemsProjects
namespace Shell

open Lib

/-- A process about to print its first prompt, with any string in the buffer `second`. -/
structure Process.Launched (s : Process) : Prop where
  ready : s.Ready
  size : s.size = 0
  children : s.children = []
  output : s.output = []

theorem Process.Start.launched {s : Process} (h : s.Start) : s.Launched :=
  ⟨h.ready, h.size, h.children, h.output⟩

/-- `pipe` returns two descriptors that are not in use. -/
def System.Fresh (sys : System) (s : Process) : Prop :=
  ∀ fd, sys.pipe = some fd → fd.1 ∉ s.fds ∧ fd.2 ∉ s.fds ∧ fd.1 ≠ fd.2

/-- From one prompt to the next. -/
def Step (s : Process) (i : Line × System) (_ : Unit) (t : Process) : Prop :=
  i.2.Fresh s ∧ round i.1.inputs i.2 s = .ok (.running t)

/-- The line has a second part, and `pipe` succeeds. -/
def OpensPipe (i : Line × System) : Prop := i.1.Piped ∧ i.2.pipe.isSome

instance (i : Line × System) : Decidable (OpensPipe i) :=
  inferInstanceAs (Decidable (_ ∧ _))

/-- Of the two descriptors of a pipe the first stays open. -/
theorem ssubset_of_pipe {F : Finset ℕ} {fd : ℕ × ℕ} (h₁ : fd.1 ∉ F) (h₂ : fd.2 ∉ F)
    (hne : fd.1 ≠ fd.2) {p : Prop} [Decidable p] :
    F ⊂ if p then (insert fd.1 (insert fd.2 F)).erase fd.2 else insert fd.1 (insert fd.2 F) := by
  refine (Finset.ssubset_iff_of_subset fun x hx => ?_).mpr ⟨fd.1, ?_, h₁⟩
  · have hx2 : x ≠ fd.2 := fun h => h₂ (h ▸ hx)
    split <;> simp [hx, hx2]
  · split <;> simp [hne]

/-- **One round**: the descriptors stay as they are, or the line has opened a pipe and
there are more of them. -/
theorem step_fds {s t : Process} (hs : s.Ready) {i : Line × System} {o : Unit}
    (h : Step s i o t) :
    (¬ OpensPipe i ∧ t.fds = s.fds) ∨ (OpensPipe i ∧ s.fds ⊂ t.fds) := by
  obtain ⟨hfresh, hround⟩ := h
  rcases (round_eq_ok_iff hs i.1.lt_bufferSize).mp hround with
    ⟨split, saved, second, a, as, hsplit, hsaved, -, -, hrun⟩ |
    ⟨split, saved, second, rest, a, as, b, bs, hsplit, hsaved, -, -, u, hrun, hu⟩
  · have hseg := segments_one hsplit hsaved
    refine Or.inl ⟨fun h => ?_, ?_⟩
    · have := h.1
      rw [Line.Piped, hseg] at this
      simp at this
    · rcases handleInputs_cases a as i.2 (s.oneCommand second a) with
        ⟨-, hexit⟩ | ⟨-, u, hu, -, hfds⟩
      · rw [hexit] at hrun
        cases hrun
      · rw [hu] at hrun
        obtain rfl : u = t := by
          cases hrun
          rfl
        exact hfds
  · have hpiped : i.1.Piped := by
      simp [Line.Piped, segments_two hsplit hsaved]
    obtain ⟨u', hu', -, hfds⟩ := handleTwoInputs_ok a b as bs i.2 (s.twoCommands second a b)
    obtain rfl : u' = t := by
      rw [hu'] at hrun
      cases hrun
      cases hu
      rfl
    rcases hpipe : i.2.pipe with _ | fd
    · rw [hpipe] at hfds
      exact Or.inl ⟨fun h => by simp [OpensPipe, hpipe] at h, hfds⟩
    · rw [hpipe] at hfds
      obtain ⟨h₁, h₂, hne⟩ := hfresh fd hpipe
      refine Or.inr ⟨⟨hpiped, by rw [hpipe]; rfl⟩, ?_⟩
      rw [hfds]
      exact ssubset_of_pipe h₁ h₂ hne

theorem step_ready {s t : Process} (hs : s.Ready) {i : Line × System} {o : Unit}
    (h : Step s i o t) : t.Ready := by
  obtain ⟨-, -, hends⟩ := round_ends hs h.2
  rcases hends with ⟨-, ho⟩ | ⟨-, u, hu, hready, -⟩
  · cases ho
  · cases hu
    exact hready

/-! ## Sessions -/

theorem fds_eq_of_run {s t : Process} {tr : List ((Line × System) × Unit)} (hs : s.Ready)
    (h : Run Step s tr t) (hall : ∀ e ∈ tr, ¬ OpensPipe e.1) : t.fds = s.fds := by
  induction h with
  | nil => rfl
  | cons hstep _ ih =>
    rw [ih (step_ready hs hstep) fun e he => hall e (List.mem_cons_of_mem _ he)]
    rcases step_fds hs hstep with ⟨-, heq⟩ | ⟨hopens, -⟩
    · exact heq
    · exact absurd hopens (hall _ List.mem_cons_self)

/-- Every line that opens a pipe costs the shell a descriptor at least. -/
theorem card_fds_of_run {s t : Process} {tr : List ((Line × System) × Unit)} (hs : s.Ready)
    (h : Run Step s tr t) :
    s.fds.card + (tr.countP fun e => OpensPipe e.1) ≤ t.fds.card := by
  induction h with
  | nil => simp
  | cons hstep _ ih =>
    have hrest := ih (step_ready hs hstep)
    rw [List.countP_cons]
    rcases step_fds hs hstep with ⟨hnot, heq⟩ | ⟨hopens, hlt⟩
    · rw [if_neg (by simpa using hnot), ← heq]
      exact hrest
    · rw [if_pos (by simpa using hopens)]
      have := Finset.card_lt_card hlt
      omega

/-- **The descriptors at every prompt** of a session are those of the first prompt if
and only if no line of it has opened a pipe. -/
theorem fds_kept_iff {s t : Process} {tr : List ((Line × System) × Unit)} (hs : s.Launched)
    (h : Run Step s tr t) :
    (∀ tr₁ tr₂ u, tr = tr₁ ++ tr₂ → Run Step s tr₁ u → u.fds = s.fds) ↔
      ∀ e ∈ tr, ¬ OpensPipe e.1 := by
  constructor
  · intro hkept e he hopens
    have hcard := card_fds_of_run hs.ready h
    rw [hkept tr [] t (List.append_nil tr).symm h] at hcard
    have hpos : 0 < tr.countP fun e => OpensPipe e.1 :=
      List.countP_pos_iff.mpr ⟨e, he, by simpa using hopens⟩
    omega
  · rintro hall tr₁ tr₂ u rfl hrun
    exact fds_eq_of_run hs.ready hrun fun e he => hall e (List.mem_append_left tr₂ he)

/-- An operating system that refuses pipes. -/
def refusing : System := { granting with pipe := none }

theorem refusing_fresh (s : Process) : refusing.Fresh s := by
  intro fd h
  cases h

theorem granting_fresh : granting.Fresh newShell := by
  intro fd h
  cases h
  decide

/-- A shell whose buffer `second` holds an empty string. -/
def filledShell : Process := { newShell with second := some (newShell.commands 0) }

theorem filledShell_launched : filledShell.Launched where
  ready := ⟨by decide, fun t ht => by cases ht; decide⟩
  size := rfl
  children := rfl
  output := rfl

/-- A line without a pipe, one whose pipe is refused, and a line without a pipe. -/
theorem fds_kept_refused : filledShell.Launched ∧
    ∀ tr₁ tr₂ u, [((lsLine, granting), ()), ((lsWcLine, refusing), ()), ((lsLine, refusing), ())] =
        tr₁ ++ tr₂ → Run Step filledShell tr₁ u → u.fds = filledShell.fds :=
  ⟨filledShell_launched, (fds_kept_iff filledShell_launched
    (Run.cons ⟨granting_fresh, rfl⟩ (Run.cons ⟨refusing_fresh _, rfl⟩
      (Run.cons ⟨refusing_fresh _, rfl⟩ (Run.nil _))))).mpr (by decide)⟩

/-- **Not every session keeps its descriptors**: behind `ls | wc` the end of the pipe
that is read from is still open in the shell. -/
theorem not_fds_kept : newShell.Launched ∧
    ∃ t, Run Step newShell [((lsWcLine, granting), ())] t ∧
      t.fds = {0, 1, 2, 3} ∧ t.fds ≠ newShell.fds :=
  ⟨newShell_start.launched, _, Run.cons ⟨granting_fresh, rfl⟩ (Run.nil _), by decide, by decide⟩

end Shell
end SystemsProjects
