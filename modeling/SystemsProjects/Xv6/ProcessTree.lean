import SystemsProjects.Xv6.Processes

/-!
# The process tree

Two views of the table, and what each event does to them: the tree, together with the forks that
are under way; and the processes that sleep in `wait`.  The pids do not matter here.

The tree holds because `exit` does all of its work in one piece: no process sees a child whose
parent is a zombie.  The processes in `wait` are those the wakeups in `exit` are for.  One of them
sleeps only as long as none of its children is a zombie; a child becomes one in `exit`, which
wakes the parent first, and it can get one from another process only if it is `initproc`, which is
then woken for each zombie that is passed to it.  A `fork` that is under way has a slot in no one's
tree until its parent is set, and a parent that sets it is not asleep.
-/

namespace SystemsProjects
namespace Xv6
namespace Processes

open Lib Function

variable {nproc : ℕ}

/-! ## Two views of the process table -/

/-- How far a process has come. -/
inductive Stage where
  | free
  | embryo
  | alive
  | zombie
  deriving DecidableEq

/-- The stage of a process in a state. -/
def State.stage : State → Stage
  | .unused => .free
  | .embryo => .embryo
  | .zombie => .zombie
  | _ => .alive

theorem State.stage_eq_zombie {r : State} : r.stage = .zombie ↔ r = .zombie := by
  cases r <;> simp [State.stage]

theorem State.stage_eq_free {r : State} : r.stage = .free ↔ r = .unused := by
  cases r <;> simp [State.stage]

theorem State.stage_eq_embryo {r : State} : r.stage = .embryo ↔ r = .embryo := by
  cases r <;> simp [State.stage]

/-- The process that sleeps in its `wait`, by the channel. -/
def Proc.sleeper (r : Proc nproc) : Option (Fin nproc) :=
  if r.state = .sleeping then
    match r.chan with
    | some (.proc q) => some q
    | _ => none
  else none

theorem Proc.of_sleeper {r : Proc nproc} {q : Fin nproc} (h : r.sleeper = some q) :
    r.state = .sleeping ∧ r.chan = some (.proc q) := by
  grind [Proc.sleeper]

theorem Proc.sleeper_of {r : Proc nproc} {q : Fin nproc} (hstate : r.state = .sleeping)
    (hchan : r.chan = some (.proc q)) : r.sleeper = some q := by
  rw [Proc.sleeper, if_pos hstate, hchan]

/-- **The tree**: every process but `initproc` has a parent that can still wait for it. -/
structure Tree (init : Fin nproc) (stage : Fin nproc → Stage)
    (parent : Fin nproc → Option (Fin nproc)) : Prop where
  init_alive : stage init = .alive
  init_parent : parent init = none
  free : ∀ p, stage p = .free → parent p = none
  irrefl : ∀ p, parent p ≠ some p
  has_parent : ∀ p, stage p = .alive ∨ stage p = .zombie → p ≠ init →
    ∃ q, parent p = some q ∧ stage q = .alive

/-- **The forks under way**: the slot that is an embryo belongs to one process, which runs, and
is its parent as soon as the slot has one. -/
structure Forks (stage : Fin nproc → Stage) (parent : Fin nproc → Option (Fin nproc))
    (call : Fin nproc → Call nproc) : Prop where
  alive : ∀ p, call p ≠ .user → stage p = .alive
  forking : ∀ p np, call p = .forking np → stage np = .embryo ∧ parent np = none
  copied : ∀ p np, call p = .copied np → stage np = .embryo ∧ parent np = some p
  embryo : ∀ np, stage np = .embryo → ∃ p, call p = .forking np ∨ call p = .copied np
  maker : ∀ p q np, call p = .forking np ∨ call p = .copied np →
    call q = .forking np ∨ call q = .copied np → p = q

/-- **Who sleeps in `wait`** has children, none of which is a zombie. -/
structure Waits (sleeper : Fin nproc → Option (Fin nproc)) (stage : Fin nproc → Stage)
    (parent : Fin nproc → Option (Fin nproc)) (call : Fin nproc → Call nproc) : Prop where
  self : ∀ p q, sleeper p = some q → q = p ∧ call p = .waiting
  noZombie : ∀ p q, sleeper q = some q → parent p = some q → stage p ≠ .zombie
  children : ∀ q, sleeper q = some q → ∃ p, parent p = some q

section Views

variable {stage stage' : Fin nproc → Stage}
  {parent parent' : Fin nproc → Option (Fin nproc)} {call call' : Fin nproc → Call nproc}
  {sleeper sleeper' : Fin nproc → Option (Fin nproc)} {init cur p np : Fin nproc}

/-! ### The tree -/

theorem Tree.alloc (h : Tree init stage parent) (hnp : stage np = .free) :
    Tree init (update stage np .embryo) parent := by
  obtain ⟨hinit, hroot, hfree, hirrefl, hparent⟩ := h
  refine ⟨?_, ?_, ?_, ?_, fun p hp hne => ?_⟩
  · grind
  · grind
  · grind
  · grind
  · obtain ⟨q, hq⟩ := hparent p (by grind) hne
    exact ⟨q, by grind⟩

theorem Tree.fails (h : Tree init stage parent) (hnp : stage np = .embryo)
    (hnone : parent np = none) : Tree init (update stage np .free) parent := by
  obtain ⟨hinit, hroot, hfree, hirrefl, hparent⟩ := h
  refine ⟨?_, ?_, ?_, ?_, fun p hp hne => ?_⟩
  · grind
  · grind
  · grind
  · grind
  · obtain ⟨q, hq⟩ := hparent p (by grind) hne
    exact ⟨q, by grind⟩

theorem Tree.setParent (h : Tree init stage parent) (hnp : stage np = .embryo)
    (hcur : stage cur = .alive) :
    Tree init stage (update parent np (some cur)) := by
  obtain ⟨hinit, hroot, hfree, hirrefl, hparent⟩ := h
  refine ⟨?_, ?_, ?_, ?_, fun p hp hne => ?_⟩
  · grind
  · grind
  · grind
  · grind
  · obtain ⟨q, hq⟩ := hparent p hp hne
    exact ⟨q, by grind⟩

theorem Tree.start (h : Tree init stage parent) (hnp : stage np = .embryo)
    (hcur : stage cur = .alive) (hnpParent : parent np = some cur) :
    Tree init (update stage np .alive) parent := by
  obtain ⟨hinit, hroot, hfree, hirrefl, hparent⟩ := h
  refine ⟨?_, ?_, ?_, ?_, fun p hp hne => ?_⟩
  · grind
  · grind
  · grind
  · grind
  · rcases eq_or_ne p np with rfl | hp'
    · exact ⟨cur, by grind⟩
    · obtain ⟨q, hq⟩ := hparent p (by grind) hne
      exact ⟨q, by grind⟩

theorem Tree.exit (h : Tree init stage parent) (hcur : stage cur = .alive) (hne : cur ≠ init) :
    Tree init (update stage cur .zombie)
      (fun p => if parent p = some cur then some init else parent p) := by
  obtain ⟨hinit, hroot, hfree, hirrefl, hparent⟩ := h
  refine ⟨?_, ?_, ?_, ?_, fun p hp hne' => ?_⟩
  · grind
  · grind
  · grind
  · grind
  · obtain ⟨q, hq⟩ := hparent p (by grind) hne'
    by_cases hqcur : q = cur
    · exact ⟨init, by grind⟩
    · exact ⟨q, by grind⟩

theorem Tree.reap (h : Tree init stage parent) (hp : stage p = .zombie) :
    Tree init (update stage p .free) (update parent p none) := by
  obtain ⟨hinit, hroot, hfree, hirrefl, hparent⟩ := h
  refine ⟨?_, ?_, ?_, ?_, fun q hq hne => ?_⟩
  · grind
  · grind
  · grind
  · grind
  · obtain ⟨r, hr⟩ := hparent q (by grind) hne
    exact ⟨r, by grind⟩

/-! ### The forks -/

theorem Forks.alloc (h : Forks stage parent call) (htree : Tree init stage parent)
    (hcur : stage cur = .alive) (hcall : call cur = .user) (hnp : stage np = .free) :
    Forks (update stage np .embryo) parent (update call cur (.forking np)) := by
  obtain ⟨halive, hforking, hcopied, hembryo, hmaker⟩ := h
  have hfree := htree.free
  refine ⟨?_, ?_, ?_, fun q hq => ?_, ?_⟩
  · grind
  · grind
  · grind
  · rcases eq_or_ne q np with rfl | hq'
    · exact ⟨cur, by grind⟩
    · obtain ⟨p, hp⟩ := hembryo q (by grind)
      exact ⟨p, by grind⟩
  · grind

theorem Forks.fails (h : Forks stage parent call) (hcall : call cur = .forking np) :
    Forks (update stage np .free) parent (update call cur .user) := by
  obtain ⟨halive, hforking, hcopied, hembryo, hmaker⟩ := h
  refine ⟨?_, ?_, ?_, fun q hq => ?_, ?_⟩
  · grind
  · grind
  · grind
  · obtain ⟨p, hp⟩ := hembryo q (by grind)
    exact ⟨p, by grind⟩
  · grind

theorem Forks.setParent (h : Forks stage parent call) (hcall : call cur = .forking np) :
    Forks stage (update parent np (some cur)) (update call cur (.copied np)) := by
  obtain ⟨halive, hforking, hcopied, hembryo, hmaker⟩ := h
  refine ⟨?_, ?_, ?_, fun q hq => ?_, ?_⟩
  · grind
  · grind
  · grind
  · obtain ⟨p, hp⟩ := hembryo q hq
    exact ⟨p, by grind⟩
  · grind

theorem Forks.start (h : Forks stage parent call) (hcall : call cur = .copied np) :
    Forks (update stage np .alive) parent (update call cur .user) := by
  obtain ⟨halive, hforking, hcopied, hembryo, hmaker⟩ := h
  refine ⟨?_, ?_, ?_, fun q hq => ?_, ?_⟩
  · grind
  · grind
  · grind
  · obtain ⟨p, hp⟩ := hembryo q (by grind)
    exact ⟨p, by grind⟩
  · grind

theorem Forks.exit (h : Forks stage parent call) (hcur : stage cur = .alive)
    (hcall : call cur = .user) :
    Forks (update stage cur .zombie)
      (fun p => if parent p = some cur then some init else parent p) call := by
  obtain ⟨halive, hforking, hcopied, hembryo, hmaker⟩ := h
  refine ⟨?_, ?_, ?_, fun q hq => ?_, hmaker⟩
  · grind
  · grind
  · grind
  · exact hembryo q (by grind)

theorem Forks.reap (h : Forks stage parent call) (hp : stage p = .zombie) :
    Forks (update stage p .free) (update parent p none) call := by
  obtain ⟨halive, hforking, hcopied, hembryo, hmaker⟩ := h
  refine ⟨?_, ?_, ?_, fun q hq => ?_, hmaker⟩
  · grind
  · grind
  · grind
  · exact hembryo q (by grind)

/-- A process enters or leaves `wait`. -/
theorem Forks.move (h : Forks stage parent call) {c : Call nproc} (hcur : stage cur = .alive)
    (hcall : call cur = .user ∨ call cur = .waiting) (hc : c = .user ∨ c = .waiting) :
    Forks stage parent (update call cur c) := by
  obtain ⟨halive, hforking, hcopied, hembryo, hmaker⟩ := h
  refine ⟨?_, ?_, ?_, fun q hq => ?_, ?_⟩
  · grind
  · grind
  · grind
  · obtain ⟨p, hp⟩ := hembryo q hq
    exact ⟨p, by grind⟩
  · grind

/-! ### The sleepers -/

theorem zombie_of_update {c : Stage} (hc : c ≠ .zombie) (p : Fin nproc)
    (h : update stage np c p = .zombie) : stage p = .zombie := by
  rcases eq_or_ne p np with rfl | hp
  · exact absurd ((update_self p c stage).symm.trans h) hc
  · rwa [update_of_ne hp] at h

/-- Fewer sleepers, no new zombies, and no new parents for the old ones. -/
theorem Waits.mono (h : Waits sleeper stage parent call)
    (hsleeper : ∀ p q, sleeper' p = some q → sleeper p = some q ∧ call' p = .waiting)
    (hstage : ∀ p, stage' p = .zombie → stage p = .zombie)
    (hparent : ∀ p q, sleeper' q = some q → (parent' p = some q ↔ parent p = some q)) :
    Waits sleeper' stage' parent' call' := by
  obtain ⟨hself, hnoZombie, hchildren⟩ := h
  refine ⟨fun p q hp => ⟨(hself p q (hsleeper p q hp).1).1, (hsleeper p q hp).2⟩,
    fun p q hq hp hz => ?_, fun q hq => ?_⟩
  · exact hnoZombie p q (hsleeper q q hq).1 ((hparent p q hq).mp hp) (hstage p hz)
  · obtain ⟨p, hp⟩ := hchildren q (hsleeper q q hq).1
    exact ⟨p, (hparent p q hq).mpr hp⟩

/-- A process that is awake moves. -/
theorem Waits.moved (h : Waits sleeper stage parent call) {c : Call nproc}
    (hcur : sleeper cur = none) (hstage : ∀ p, stage' p = .zombie → stage p = .zombie) :
    Waits sleeper stage' parent (update call cur c) := by
  have hself := h.self
  refine h.mono (fun p q hp => ⟨hp, ?_⟩) hstage fun _ _ _ => Iff.rfl
  grind

/-- A process goes to sleep in `wait`. -/
theorem Waits.sleep (h : Waits sleeper stage parent call)
    (hzombie : ∀ p, parent p = some cur → stage p ≠ .zombie)
    (hchild : ∃ p, parent p = some cur) :
    Waits (update sleeper cur (some cur)) stage parent (update call cur .waiting) := by
  obtain ⟨hself, hnoZombie, hchildren⟩ := h
  refine ⟨?_, ?_, ?_⟩
  all_goals grind

/-- A process that is awake frees a child. -/
theorem Waits.reap (h : Waits sleeper stage parent call) (hparent : parent p = some cur)
    (hcur : sleeper cur = none) :
    Waits (update sleeper p none) (update stage p .free) (update parent p none) call := by
  have hself := h.self
  refine h.mono (fun q r hq => ?_) (fun q hq => ?_) fun q r hr => ?_
  · grind
  · grind
  · grind

/-- The child gets a parent that is awake. -/
theorem Waits.setParent (h : Waits sleeper stage parent call) (hnp : parent np = none)
    (hcur : sleeper cur = none) :
    Waits sleeper stage (update parent np (some cur)) (update call cur (.copied np)) := by
  have hself := h.self
  refine h.mono (fun q r hq => ?_) (fun q hq => hq) fun q r hr => ?_
  · grind
  · grind

/-- A process exits. -/
theorem Waits.exit (h : Waits sleeper stage parent call) (htree : Tree init stage parent)
    (hne : cur ≠ init) (hcur : stage cur = .alive) (hsleeps : sleeper cur = none)
    (hsleeper : ∀ p q, sleeper' p = some q → sleeper p = some q)
    (hparent : ∀ p q, parent cur = some q → sleeper' p ≠ some q)
    (hinit : ∀ z p, parent z = some cur → stage z = .zombie → sleeper' p ≠ some init) :
    Waits sleeper' (update stage cur .zombie)
      (fun p => if parent p = some cur then some init else parent p) call := by
  obtain ⟨hself, hnoZombie, hchildren⟩ := h
  have hirrefl := htree.irrefl
  have hroot := htree.init_parent
  have halive := htree.init_alive
  obtain ⟨r, hr, -⟩ := htree.has_parent cur (Or.inl hcur) hne
  refine ⟨fun p q hp => hself p q (hsleeper p q hp), fun p q hq hp => ?_, fun q hq => ?_⟩
  · grind
  · obtain ⟨p, hp⟩ := hchildren q (hsleeper q q hq)
    exact ⟨p, by grind⟩

end Views

/-! ## The table keeps the tree -/

namespace Sys

variable {s s' t : Sys nproc} {init cur p q np : Fin nproc} {e : Event nproc} {o : Out}

/-- The stage of a slot. -/
def stage (s : Sys nproc) (p : Fin nproc) : Stage := (s.proc p).state.stage

/-- The parent of a slot. -/
def parent (s : Sys nproc) (p : Fin nproc) : Option (Fin nproc) := (s.proc p).parent

/-- Whose exit a slot waits for, if it sleeps in `wait`. -/
def sleeper (s : Sys nproc) (p : Fin nproc) : Option (Fin nproc) := (s.proc p).sleeper

theorem view_set {α : Type*} (f : Proc nproc → α) (s : Sys nproc) (p : Fin nproc)
    (r : Proc nproc) : (fun q => f ((s.set p r).proc q)) = update (fun q => f (s.proc q)) p (f r) :=
  comp_update f s.proc p r

@[simp] theorem stage_set (s : Sys nproc) (p : Fin nproc) (r : Proc nproc) :
    (s.set p r).stage = update s.stage p r.state.stage :=
  view_set (fun r => r.state.stage) s p r

@[simp] theorem parent_set (s : Sys nproc) (p : Fin nproc) (r : Proc nproc) :
    (s.set p r).parent = update s.parent p r.parent :=
  view_set (·.parent) s p r

@[simp] theorem sleeper_set (s : Sys nproc) (p : Fin nproc) (r : Proc nproc) :
    (s.set p r).sleeper = update s.sleeper p r.sleeper :=
  view_set (·.sleeper) s p r

@[simp] theorem stage_move (s : Sys nproc) (p : Fin nproc) (c : Call nproc) :
    (s.move p c).stage = s.stage := rfl

@[simp] theorem parent_move (s : Sys nproc) (p : Fin nproc) (c : Call nproc) :
    (s.move p c).parent = s.parent := rfl

@[simp] theorem sleeper_move (s : Sys nproc) (p : Fin nproc) (c : Call nproc) :
    (s.move p c).sleeper = s.sleeper := rfl

/-- What holds of the table in every state. -/
structure Good (init : Fin nproc) (s : Sys nproc) : Prop where
  tree : Tree init s.stage s.parent
  forks : Forks s.stage s.parent s.call
  waits : Waits s.sleeper s.stage s.parent s.call

theorem good_boot (init : Fin nproc) : Good init (boot init) where
  tree := by
    refine ⟨?_, ?_, fun p => ?_, fun p => ?_, fun p => ?_⟩
    all_goals simp only [parent, stage, boot]
    all_goals grind [State.stage]
  forks := by
    refine ⟨fun p => ?_, fun p np => ?_, fun p np => ?_, fun p => ?_, fun p q np => ?_⟩
    all_goals simp only [parent, stage, boot]
    all_goals grind [State.stage]
  waits := by
    refine ⟨fun p q => ?_, fun p q => ?_, fun q => ?_⟩
    all_goals simp only [sleeper, parent, stage, boot]
    all_goals grind [Proc.sleeper]

/-- Nothing changes but that fewer processes sleep in `wait`. -/
theorem Good.quiet (h : Good init s) (hcall : t.call = s.call) (hstage : t.stage = s.stage)
    (hparent : t.parent = s.parent)
    (hsleeper : ∀ p q, t.sleeper p = some q → s.sleeper p = some q) : Good init t where
  tree := by rw [hstage, hparent]; exact h.tree
  forks := by rw [hstage, hparent, hcall]; exact h.forks
  waits := by
    rw [hstage, hparent, hcall]
    exact h.waits.mono (fun p q hp => ⟨hsleeper p q hp, (h.waits.self p q (hsleeper p q hp)).2⟩)
      (fun p => id) fun p q _ => Iff.rfl

/-- A process that is alive before and after. -/
theorem Good.set_alive (h : Good init s) {r : Proc nproc}
    (hparent : r.parent = (s.proc p).parent) (hstage : r.state.stage = (s.proc p).state.stage)
    (hsleeper : r.sleeper = none) : Good init (s.set p r) := by
  refine h.quiet rfl ?_ ?_ fun q q' hq => ?_
  · rw [stage_set, hstage]
    exact update_eq_self p s.stage
  · rw [parent_set, hparent]
    exact update_eq_self p s.parent
  · rw [sleeper_set, hsleeper] at hq
    grind

theorem Good.wakeup1 (h : Good init s) (c : Chan nproc) : Good init (s.wakeup1 c) := by
  refine h.quiet rfl ?_ ?_ fun q q' hq => ?_
  · funext q
    simp only [stage, Sys.wakeup1]
    grind [State.stage]
  · funext q
    simp only [parent, Sys.wakeup1]
    grind
  · simp only [sleeper, Sys.wakeup1] at hq ⊢
    grind [Proc.sleeper]

theorem Good.kill (h : Good init s) (k : ℕ) : Good init (s.kill k).1 := by
  rw [Sys.kill]
  split
  · rename_i p hp
    refine h.set_alive rfl ?_ ?_
    · grind [State.stage]
    · grind [Proc.sleeper]
  · exact h

/-- `scheduler` -/
theorem Good.run (h : Good init s) (hstate : (s.proc p).state = .runnable) :
    Good init (s.run p) :=
  h.set_alive rfl (by rw [hstate]; rfl) rfl

/-- Nothing changes but where a process is. -/
theorem Good.move (h : Good init s) {c : Call nproc} (hcur : s.stage cur = .alive)
    (hsleeper : s.sleeper cur = none) (hcall : s.call cur = .user ∨ s.call cur = .waiting)
    (hc : c = .user ∨ c = .waiting) : Good init (s.move cur c) where
  tree := h.tree
  forks := h.forks.move hcur hcall hc
  waits := h.waits.moved hsleeper (fun _ => id)

theorem sleeper_of_running (hstate : (s.proc p).state = .running) : s.sleeper p = none := by
  rw [sleeper, Proc.sleeper, hstate]
  rfl

theorem stage_of_running (hstate : (s.proc p).state = .running) : s.stage p = .alive := by
  rw [stage, hstate]
  rfl

theorem sleeper_of_stage (h : s.stage p ≠ .alive) : s.sleeper p = none := by
  simp only [stage, sleeper] at h ⊢
  grind [State.stage, Proc.sleeper]

/-- A round of `wait`. -/
theorem Good.wait (h : Good init s) (hstate : (s.proc cur).state = .running)
    (hcall : s.call cur = .user ∨ s.call cur = .waiting) : Good init (s.wait cur).1 := by
  have hcur := stage_of_running hstate
  rcases s.wait_cases cur with ⟨p, hparent, hzombie, hwait⟩ | hwait | ⟨hnot, hchild, -, hwait⟩
  · rw [hwait]
    have hp : s.stage p = .zombie := by rw [stage, hzombie]; rfl
    have hne : cur ≠ p := by
      rintro rfl
      rw [hcur] at hp
      cases hp
    have hnone := sleeper_of_stage (s := s) (p := p) (by rw [hp]; decide)
    refine Good.move (s := s.set p _) ⟨?_, ?_, ?_⟩ ?_ ?_ hcall (Or.inl rfl)
    · rw [stage_set, parent_set]
      exact h.tree.reap hp
    · rw [stage_set, parent_set]
      exact h.forks.reap hp
    · rw [sleeper_set, stage_set, parent_set]
      exact h.waits.reap hparent (sleeper_of_running hstate)
    · rw [stage_set, update_of_ne hne, hcur]
    · rw [sleeper_set, update_of_ne hne, sleeper_of_running hstate]
  · rw [hwait]
    exact h.move hcur (sleeper_of_running hstate) hcall (Or.inl rfl)
  · rw [hwait]
    have hstage : update s.stage cur .alive = s.stage := by
      rw [← hcur]
      exact update_eq_self cur s.stage
    have hsame : update s.parent cur (s.proc cur).parent = s.parent := update_eq_self cur s.parent
    refine ⟨?_, ?_, ?_⟩
    · simp only [stage_move, stage_set, parent_move, parent_set, State.stage, hsame, hstage]
      exact h.tree
    · simp only [stage_move, stage_set, parent_move, parent_set, State.stage, hsame, hstage]
      exact h.forks.move hcur hcall (Or.inr rfl)
    · simp only [sleeper_move, sleeper_set, stage_move, stage_set, parent_move, parent_set,
        State.stage, hsame, hstage]
      exact h.waits.sleep (fun p hp hz => hnot p hp (State.stage_eq_zombie.mp hz)) hchild

/-- Who sleeps in `wait` after an `exit` did so before. -/
theorem sleeper_exit (p q : Fin nproc) (h : (s.exit init cur).sleeper p = some q) :
    s.sleeper p = some q ∧ ((s.exit init cur).proc p).state = .sleeping ∧
      (s.proc p).chan = some (.proc q) := by
  obtain ⟨-, hsame, -, hzombie, hstates, -, -⟩ := exited_exit s init cur
  obtain ⟨hsleeping, hchan⟩ := Proc.of_sleeper h
  rw [(hsame p).2.1] at hchan
  have hne : p ≠ cur := by
    rintro rfl
    rw [hzombie] at hsleeping
    cases hsleeping
  refine ⟨?_, hsleeping, hchan⟩
  rcases hstates p hne with heq | ⟨-, hrunnable⟩
  · exact Proc.sleeper_of (heq.symm.trans hsleeping) hchan
  · rw [hsleeping] at hrunnable
    cases hrunnable

theorem stage_exit (s : Sys nproc) (init cur : Fin nproc) :
    (s.exit init cur).stage = update s.stage cur .zombie := by
  obtain ⟨-, -, -, hzombie, hstates, -, -⟩ := exited_exit s init cur
  funext p
  rcases eq_or_ne p cur with rfl | hp
  · rw [update_self, stage, hzombie]
    rfl
  · rw [update_of_ne hp, stage, stage]
    rcases hstates p hp with heq | ⟨hsleeping, hrunnable⟩
    · rw [heq]
    · rw [hsleeping, hrunnable]
      rfl

theorem Good.exit (h : Good init s) (hstate : (s.proc cur).state = .running)
    (hcall : s.call cur = .user) (hne : cur ≠ init) : Good init (s.exit init cur) := by
  obtain ⟨⟨-, hsamecall⟩, -, hparent, -, -, hwokenParent, hwokenInit⟩ :=
    exited_exit s init cur
  have hcur := stage_of_running hstate
  have hparents : (s.exit init cur).parent =
      fun p => if s.parent p = some cur then some init else s.parent p := funext hparent
  have hstage := stage_exit s init cur
  refine ⟨?_, ?_, ?_⟩
  · rw [hstage, hparents]
    exact h.tree.exit hcur hne
  · rw [hstage, hparents, hsamecall]
    exact h.forks.exit hcur hcall
  · rw [hstage, hparents, hsamecall]
    refine h.waits.exit h.tree hne hcur (sleeper_of_running hstate)
      (fun p q hp => (sleeper_exit p q hp).1) (fun p q hq hp => ?_) fun z p hz hzz hp => ?_
    · exact hwokenParent q p hq (sleeper_exit p q hp).2.1 (sleeper_exit p q hp).2.2
    · refine hwokenInit ⟨z, hz, ?_⟩ p (sleeper_exit p init hp).2.1 (sleeper_exit p init hp).2.2
      exact State.stage_eq_zombie.mp hzz

/-- A slot whose process does not sleep, with other contents of which the same is true. -/
theorem sleeper_set_of_stage {r : Proc nproc} (h : s.stage p ≠ .alive) (hr : r.sleeper = none) :
    (s.set p r).sleeper = s.sleeper := by
  rw [sleeper_set, hr, ← sleeper_of_stage h]
  exact update_eq_self p s.sleeper

/-- A process that is in `fork` does not sleep in `wait`. -/
theorem Good.sleeper_eq_none (h : Good init s) (hcall : s.call p ≠ .waiting) :
    s.sleeper p = none :=
  Option.eq_none_iff_forall_not_mem.mpr fun q hq => hcall (h.waits.self p q hq).2

/-- `allocproc` -/
theorem Good.alloc (h : Good init s) (hstate : (s.proc p).state = .running)
    (hcall : s.call p = .user) (hfree : (s.proc np).state = .unused) :
    Good init (({ s with nextpid := (s.nextpid + 1) % 2 ^ 32 }.set np
      { s.proc np with state := .embryo, pid := s.nextpid }).move p (.forking np)) := by
  have hnp : s.stage np = .free := by rw [stage, hfree]; rfl
  have hawake : s.stage np ≠ .alive := by rw [hnp]; decide
  have hsame : update s.parent np (s.proc np).parent = s.parent := update_eq_self np s.parent
  refine ⟨?_, ?_, ?_⟩
  · rw [stage_move, parent_move, stage_set, parent_set]
    exact hsame.symm ▸ h.tree.alloc hnp
  · rw [stage_move, parent_move, stage_set, parent_set]
    exact hsame.symm ▸ h.forks.alloc h.tree (stage_of_running hstate) hcall hnp
  · rw [sleeper_move, stage_move, parent_move, stage_set, parent_set]
    rw [sleeper_set_of_stage (s := { s with nextpid := (s.nextpid + 1) % 2 ^ 32 }) hawake rfl]
    exact hsame.symm ▸ h.waits.moved (sleeper_of_running hstate)
      (zombie_of_update Stage.noConfusion)

/-- `fork` fails after `allocproc`. -/
theorem Good.fails (h : Good init s) (hcall : s.call p = .forking np) :
    Good init ((s.set np { s.proc np with state := .unused }).move p .user) := by
  obtain ⟨hnp, hnone⟩ := h.forks.forking p np hcall
  have hawake : s.stage np ≠ .alive := by rw [hnp]; decide
  have hsame : update s.parent np (s.proc np).parent = s.parent := update_eq_self np s.parent
  refine ⟨?_, ?_, ?_⟩
  · rw [stage_move, parent_move, stage_set, parent_set]
    exact hsame.symm ▸ h.tree.fails hnp hnone
  · rw [stage_move, parent_move, stage_set, parent_set]
    exact hsame.symm ▸ h.forks.fails hcall
  · rw [sleeper_move, stage_move, parent_move, stage_set, parent_set]
    rw [sleeper_set_of_stage hawake rfl]
    exact hsame.symm ▸ h.waits.moved
      (h.sleeper_eq_none (by simp only [hcall, ne_eq, reduceCtorEq, not_false_iff]))
      (zombie_of_update Stage.noConfusion)

theorem Good.setParent (h : Good init s) (hcall : s.call p = .forking np) :
    Good init ((s.set np { s.proc np with parent := some p }).move p (.copied np)) := by
  obtain ⟨hnp, hnone⟩ := h.forks.forking p np hcall
  have hp := h.forks.alive p (by simp only [hcall, ne_eq, reduceCtorEq, not_false_iff])
  have hstage : update s.stage np (s.proc np).state.stage = s.stage := update_eq_self np s.stage
  have hsleeper : update s.sleeper np (s.proc np).sleeper = s.sleeper :=
    update_eq_self np s.sleeper
  refine ⟨?_, ?_, ?_⟩
  · rw [stage_move, parent_move, stage_set, parent_set, hstage]
    exact h.tree.setParent hnp hp
  · rw [stage_move, parent_move, stage_set, parent_set, hstage]
    exact h.forks.setParent hcall
  · rw [sleeper_move, stage_move, parent_move, stage_set, parent_set, sleeper_set, hstage]
    refine hsleeper.symm ▸ ?_
    exact h.waits.setParent hnone
      (h.sleeper_eq_none (by simp only [hcall, ne_eq, reduceCtorEq, not_false_iff]))

/-- The child starts. -/
theorem Good.start (h : Good init s) (hcall : s.call p = .copied np) :
    Good init ((s.set np { s.proc np with state := .runnable }).move p .user) := by
  obtain ⟨hnp, hparent⟩ := h.forks.copied p np hcall
  have hp := h.forks.alive p (by simp only [hcall, ne_eq, reduceCtorEq, not_false_iff])
  have hawake : s.stage np ≠ .alive := by rw [hnp]; decide
  have hsame : update s.parent np (s.proc np).parent = s.parent := update_eq_self np s.parent
  refine ⟨?_, ?_, ?_⟩
  · rw [stage_move, parent_move, stage_set, parent_set]
    exact hsame.symm ▸ h.tree.start hnp hp hparent
  · rw [stage_move, parent_move, stage_set, parent_set]
    exact hsame.symm ▸ h.forks.start hcall
  · rw [sleeper_move, stage_move, parent_move, stage_set, parent_set]
    rw [sleeper_set_of_stage hawake rfl]
    exact hsame.symm ▸ h.waits.moved
      (h.sleeper_eq_none (by simp only [hcall, ne_eq, reduceCtorEq, not_false_iff]))
      (zombie_of_update Stage.noConfusion)

theorem Good.step (h : Good init s) (hstep : Step init s e o s') : Good init s' := by
  cases hstep.moves with
  | schedule p hstate => exact h.run hstate
  | resume p hstate hcall =>
    exact (h.run hstate).wait (by simp only [Sys.run, set, update_self])
      (Or.inr hcall)
  | yield p hstate => exact h.set_alive rfl (by rw [hstate]; rfl) rfl
  | sleep p c hstate => exact h.set_alive rfl (by rw [hstate]; rfl) rfl
  | wakeup c => exact h.wakeup1 _
  | kill k => exact h.kill k
  | fault p hstate =>
    exact h.set_alive rfl rfl (by rw [Proc.sleeper, hstate]; rfl)
  | noproc p => exact h
  | allocproc p np hstate hcall hfree => exact h.alloc hstate hcall hfree
  | forkFails p np hcall => exact h.fails hcall
  | setParent p np hcall => exact h.setParent hcall
  | forkDone p np hcall => exact h.start hcall
  | exit p hstate hcall hne => exact h.exit hstate hcall hne
  | wait p hstate hcall => exact h.wait hstate (Or.inl hcall)

/-! ## Who sleeps in `wait` is not killed -/

/-- No process that sleeps in `wait` is killed. -/
def Spared (s : Sys nproc) : Prop :=
  ∀ p q, s.sleeper p = some q → (s.proc p).killed = false

theorem Spared.set (h : Spared s) {r : Proc nproc}
    (hr : ∀ q, r.sleeper = some q → r.killed = false) : Spared (s.set p r) := by
  intro q r' hq
  rcases eq_or_ne q p with rfl | hne
  · rw [sleeper_set, update_self] at hq
    simp only [Sys.set, update_self]
    exact hr r' hq
  · rw [sleeper_set, update_of_ne hne] at hq
    simp only [Sys.set, update_of_ne hne]
    exact h q r' hq

theorem Spared.set_awake (h : Spared s) {r : Proc nproc} (hr : r.sleeper = none) :
    Spared (s.set p r) :=
  h.set fun _ hq => absurd (hr.symm.trans hq) (Option.some_ne_none _).symm

theorem Spared.wakeup1 (h : Spared s) (c : Chan nproc) : Spared (s.wakeup1 c) := by
  intro p q hp
  simp only [sleeper, Sys.wakeup1] at hp ⊢
  have hp' := h p q
  simp only [sleeper] at hp'
  grind [Proc.sleeper]

theorem Spared.wait (h : Spared s) : Spared (s.wait cur).1 := by
  rcases s.wait_cases cur with ⟨p, -, -, hwait⟩ | hwait | ⟨-, -, hkilled, hwait⟩
  · rw [hwait]
    exact h.set fun q hq => rfl
  · rw [hwait]
    exact h
  · rw [hwait]
    exact h.set fun q hq => hkilled

theorem Spared.step (h : Spared s) (hstep : Step init s e o s') : Spared s' := by
  cases hstep.moves with
  | schedule p hstate => exact h.set_awake rfl
  | resume p hstate hcall => exact (h.set_awake rfl).wait
  | yield p hstate => exact h.set_awake rfl
  | sleep p c hstate => exact h.set_awake rfl
  | wakeup c => exact h.wakeup1 _
  | kill k =>
    rw [kill]
    split
    · exact h.set_awake (by grind [Proc.sleeper])
    · exact h
  | fault p hstate => exact h.set_awake (by rw [Proc.sleeper, hstate]; rfl)
  | noproc p => exact h
  | allocproc p np hstate hcall hfree =>
    exact Spared.set_awake (s := { s with nextpid := (s.nextpid + 1) % 2 ^ 32 }) h rfl
  | forkFails p np hcall => exact h.set_awake rfl
  | setParent p np hcall => exact h.set fun q hq => h np q hq
  | forkDone p np hcall => exact h.set_awake rfl
  | exit p hstate hcall hne =>
    intro q r hq
    rw [((exited_exit s init p).same q).2.2]
    exact h q r (sleeper_exit q r hq).1
  | wait p hstate hcall => exact h.wait

/-! ## Over whole runs -/

/-- **The process tree.**  After any steps of any processes on any number of processors, every
process and every zombie but `initproc` has a parent that is neither a zombie nor an unused slot;
and a process that sleeps in `wait` has a child, has no child that is a zombie, and is not
killed: no wakeup is lost. -/
theorem process_tree {tr : List (Event nproc × Out)} (hrun : Run (Step init) (boot init) tr s) :
    (∀ p, p ≠ init → (s.proc p).state ≠ .unused → (s.proc p).state ≠ .embryo →
      ∃ q, (s.proc p).parent = some q ∧ (s.proc q).state ≠ .unused ∧
        (s.proc q).state ≠ .embryo ∧ (s.proc q).state ≠ .zombie) ∧
    ∀ p q, (s.proc p).state = .sleeping → (s.proc p).chan = some (.proc q) →
      (∃ c, (s.proc c).parent = some p) ∧ (s.proc p).killed = false ∧
        ∀ c, (s.proc c).parent = some p → (s.proc c).state ≠ .zombie := by
  have hgood : Good init s := Run.invariant (P := Good init)
    (fun _ _ _ _ hP hstep => hP.step hstep) hrun (good_boot init)
  have hspared : Spared s := Run.invariant (P := Spared)
    (fun _ _ _ _ hP hstep => hP.step hstep) hrun fun p q hp => by
      simp only [sleeper, boot] at hp
      grind [Proc.sleeper]
  refine ⟨fun p hne hunused hembryo => ?_, fun p q hsleeping hchan => ?_⟩
  · have hstage : s.stage p = .alive ∨ s.stage p = .zombie := by
      simp only [stage]
      grind [State.stage]
    obtain ⟨q, hq, halive⟩ := hgood.tree.has_parent p hstage hne
    simp only [stage] at halive
    exact ⟨q, hq, by grind [State.stage]⟩
  · have hp := Proc.sleeper_of hsleeping hchan
    obtain ⟨rfl, -⟩ := hgood.waits.self p q hp
    exact ⟨hgood.waits.children q hp, hspared q q hp, fun c hc hzombie =>
      hgood.waits.noZombie c q hp hc (State.stage_eq_zombie.mpr hzombie)⟩

/-- The first process forks and waits for its child. -/
theorem process_tree_waiting :
    ∃ (tr : List (Event 2 × Out)) (s : Sys 2),
      Run (Step 0) (boot 0) tr s ∧ (s.proc 0).state = .sleeping ∧
      (∀ p, p ≠ 0 → (s.proc p).state ≠ .unused → (s.proc p).state ≠ .embryo →
        ∃ q, (s.proc p).parent = some q ∧ (s.proc q).state ≠ .unused ∧
          (s.proc q).state ≠ .embryo ∧ (s.proc q).state ≠ .zombie) ∧
      ∀ p q, (s.proc p).state = .sleeping → (s.proc p).chan = some (.proc q) →
        (∃ c, (s.proc c).parent = some p) ∧ (s.proc p).killed = false ∧
          ∀ c, (s.proc c).parent = some p → (s.proc c).state ≠ .zombie := by
  obtain ⟨tr, s, hrun, hasleep⟩ := Run.exists_of_play (f := step (0 : Fin 2)) (s := boot 0)
    (l := [.schedule 0, .allocproc 0, .setParent 0, .forkDone 0, .wait 0])
    (fun r => (r.1.proc 0).state) (v := .sleeping) (by decide)
  exact ⟨tr, s, hrun, hasleep, process_tree hrun⟩

end Sys

end Processes
end Xv6
end SystemsProjects
