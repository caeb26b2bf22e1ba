import SystemsProjects.Lib.Exec

/-!
# The life of the processes

The process table has `NPROC` slots.  `fork` takes an unused one, makes a process of it and
gives it the caller as its parent; `exit` passes the children of the process to `initproc`,
wakes those who may wait for it, and leaves a zombie; `wait` frees the slot of a zombie child, or
sleeps until there is one.  The processes run on any number of processors, and the scheduler may
take any that is `RUNNABLE`.

A step of the system is what happens while the lock of the table is held.  `fork` takes it
twice, so it is in four steps, between which all the others go on.
-/

namespace SystemsProjects
namespace Xv6
namespace Processes

open Lib Function

/-- `enum procstate` -/
inductive State where
  | unused
  | embryo
  | sleeping
  | runnable
  | running
  | zombie
  deriving DecidableEq

/-- What a process sleeps on: a process, in `wait`, or something else in the kernel. -/
inductive Chan (nproc : ℕ) where
  | proc (p : Fin nproc)
  | other (c : ℕ)
  deriving DecidableEq

/-- `struct proc`, as far as the life of the process goes.  A pid is an `int`, here by its bits. -/
structure Proc (nproc : ℕ) where
  state : State
  pid : ℕ
  parent : Option (Fin nproc)
  chan : Option (Chan nproc)
  killed : Bool

/-- Where a process is in the kernel: in `fork`, with a child that has no parent yet or that has
one; in `wait`; or anywhere else. -/
inductive Call (nproc : ℕ) where
  | user
  | forking (np : Fin nproc)
  | copied (np : Fin nproc)
  | waiting
  deriving DecidableEq

/-- The process table, `nextpid`, and where the processes are. -/
structure Sys (nproc : ℕ) where
  proc : Fin nproc → Proc nproc
  nextpid : ℕ
  call : Fin nproc → Call nproc

/-- What happens.  `allocproc`, `forkFails`, `setParent` and `forkDone` are the parts of `fork`:
it may fail when there is no memory for the stack or for the copy of the process.  `fault` is a
trap in user space that the kernel does not expect. -/
inductive Event (nproc : ℕ) where
  | schedule (p : Fin nproc)
  | yield (p : Fin nproc)
  | sleep (p : Fin nproc) (c : ℕ)
  | wakeup (c : ℕ)
  | kill (pid : ℕ)
  | fault (p : Fin nproc)
  | allocproc (p : Fin nproc)
  | forkFails (p : Fin nproc)
  | setParent (p : Fin nproc)
  | forkDone (p : Fin nproc)
  | exit (p : Fin nproc)
  | wait (p : Fin nproc)

/-- What a call returns, or what `trap` prints. -/
inductive Out where
  | none
  | failed
  | trapped (pid : ℕ)
  | forked (pid : ℕ)
  | waited (pid : ℕ)
  deriving DecidableEq

variable {nproc : ℕ}

namespace Sys

/-- A slot with other contents. -/
def set (s : Sys nproc) (p : Fin nproc) (r : Proc nproc) : Sys nproc :=
  { s with proc := update s.proc p r }

/-- A process at another place. -/
def move (s : Sys nproc) (p : Fin nproc) (c : Call nproc) : Sys nproc :=
  { s with call := update s.call p c }

/-- `scheduler` takes a process, which leaves `sleep` if it comes from there. -/
def run (s : Sys nproc) (p : Fin nproc) : Sys nproc :=
  s.set p { s.proc p with state := .running, chan := none }

/-- The loops through the table: the first slot that passes the test. -/
def find (test : Fin nproc → Bool) : Option (Fin nproc) := (List.finRange nproc).find? test

/-- The table after `userinit`. -/
def boot (init : Fin nproc) : Sys nproc where
  proc p := if p = init then ⟨.runnable, 1, none, none, false⟩
    else ⟨.unused, 0, none, none, false⟩
  nextpid := 2
  call _ := .user

/-- `wakeup1` -/
def wakeup1 (s : Sys nproc) (c : Chan nproc) : Sys nproc :=
  { s with proc := fun p =>
      if (s.proc p).state = .sleeping ∧ (s.proc p).chan = some c then
        { s.proc p with state := .runnable }
      else s.proc p }

/-- `kill`: whether a process was found. -/
def kill (s : Sys nproc) (pid : ℕ) : Sys nproc × Bool :=
  match find fun p => (s.proc p).pid = pid with
  | some p =>
    (s.set p { s.proc p with
      killed := true
      state := if (s.proc p).state = .sleeping then .runnable else (s.proc p).state }, true)
  | none => (s, false)

/-- A round of the loop in `exit` that passes the children to `initproc`. -/
def adopt (init cur : Fin nproc) (s : Sys nproc) (p : Fin nproc) : Sys nproc :=
  if (s.proc p).parent = some cur then
    let s := s.set p { s.proc p with parent := some init }
    if (s.proc p).state = .zombie then s.wakeup1 (.proc init) else s
  else s

/-- `exit` from where it takes the lock of the table. -/
def exit (init : Fin nproc) (s : Sys nproc) (cur : Fin nproc) : Sys nproc :=
  let s := match (s.proc cur).parent with
    | some q => s.wakeup1 (.proc q)
    | none => s
  let s := (List.finRange nproc).foldl (adopt init cur) s
  s.set cur { s.proc cur with state := .zombie }

/-- A round of the loop of `wait`, up to the return or to the `sleep`. -/
def wait (s : Sys nproc) (cur : Fin nproc) : Sys nproc × Out :=
  match find fun p => (s.proc p).parent = some cur ∧ (s.proc p).state = .zombie with
  | some p =>
    ((s.set p { s.proc p with pid := 0, parent := none, killed := false, state := .unused }).move
      cur .user, .waited (s.proc p).pid)
  | none =>
    if (find fun p => (s.proc p).parent = some cur) = none ∨ (s.proc cur).killed = true then
      (s.move cur .user, .failed)
    else
      ((s.set cur { s.proc cur with chan := some (.proc cur), state := .sleeping }).move
        cur .waiting, .none)

/-- One event.  A process that does something is `RUNNING`. -/
def step (init : Fin nproc) (s : Sys nproc) : Event nproc → Option (Sys nproc × Out)
  | .schedule p =>
      if (s.proc p).state = .runnable then
        if s.call p = .waiting then some ((s.run p).wait p) else some (s.run p, .none)
      else none
  | .yield p =>
      if (s.proc p).state = .running then
        some (s.set p { s.proc p with state := .runnable }, .none)
      else none
  | .sleep p c =>
      if (s.proc p).state = .running ∧ s.call p = .user then
        some (s.set p { s.proc p with chan := some (.other c), state := .sleeping }, .none)
      else none
  | .wakeup c => some (s.wakeup1 (.other c), .none)
  | .kill pid => some ((s.kill pid).1, if (s.kill pid).2 then .none else .failed)
  | .fault p =>
      if (s.proc p).state = .running ∧ s.call p = .user then
        some (s.set p { s.proc p with killed := true }, .trapped (s.proc p).pid)
      else none
  | .allocproc p =>
      if (s.proc p).state = .running ∧ s.call p = .user then
        match find fun np => (s.proc np).state = .unused with
        | none => some (s, .failed)
        | some np =>
          some (({ s with nextpid := (s.nextpid + 1) % 2 ^ 32 }.set np
            { s.proc np with state := .embryo, pid := s.nextpid }).move p (.forking np), .none)
      else none
  | .forkFails p =>
      match s.call p with
      | .forking np =>
        if (s.proc p).state = .running then
          some ((s.set np { s.proc np with state := .unused }).move p .user, .failed)
        else none
      | _ => none
  | .setParent p =>
      match s.call p with
      | .forking np =>
        if (s.proc p).state = .running then
          some ((s.set np { s.proc np with parent := some p }).move p (.copied np), .none)
        else none
      | _ => none
  | .forkDone p =>
      match s.call p with
      | .copied np =>
        if (s.proc p).state = .running then
          some ((s.set np { s.proc np with state := .runnable }).move p .user,
            .forked (s.proc np).pid)
        else none
      | _ => none
  | .exit p =>
      if (s.proc p).state = .running ∧ s.call p = .user ∧ p ≠ init then
        some (s.exit init p, .none)
      else none
  | .wait p =>
      if (s.proc p).state = .running ∧ s.call p = .user then some (s.wait p) else none

/-- The process table as a transition relation. -/
def Step (init : Fin nproc) (s : Sys nproc) (e : Event nproc) (o : Out) (s' : Sys nproc) :
    Prop :=
  s.step init e = some (s', o)

/-! ## The effect of `exit` and of `wait` -/

variable {s s' : Sys nproc} {init cur p q : Fin nproc} {e : Event nproc} {o : Out}

theorem find_eq_none {test : Fin nproc → Bool} :
    find test = none ↔ ∀ p, test p = false := by
  rw [find, List.find?_eq_none]
  refine ⟨fun h p => ?_, fun h p _ => ?_⟩
  · rw [← Bool.not_eq_true]
    exact h p (List.mem_finRange p)
  · rw [h p]
    exact Bool.false_ne_true

theorem of_find {test : Fin nproc → Bool} (h : find test = some p) : test p = true :=
  List.find?_some h

/-- What the loop of `exit` does when it has seen the slots `l`: the children among them have a
new parent, and if one of them is a zombie, `initproc` does not sleep in `wait`. -/
structure Adopted (init cur : Fin nproc) (l : List (Fin nproc)) (s t : Sys nproc) : Prop where
  rest : t.nextpid = s.nextpid ∧ t.call = s.call
  same : ∀ p, (t.proc p).pid = (s.proc p).pid ∧ (t.proc p).chan = (s.proc p).chan ∧
    (t.proc p).killed = (s.proc p).killed
  parent : ∀ p, (t.proc p).parent =
    if p ∈ l ∧ (s.proc p).parent = some cur then some init else (s.proc p).parent
  state : ∀ p, (t.proc p).state = (s.proc p).state ∨
    (s.proc p).state = .sleeping ∧ (t.proc p).state = .runnable
  woken : (∃ z ∈ l, (s.proc z).parent = some cur ∧ (s.proc z).state = .zombie) →
    ∀ p, (t.proc p).state = .sleeping → (s.proc p).chan ≠ some (.proc init)

theorem adopted_nil (s : Sys nproc) : Adopted init cur [] s s where
  rest := ⟨rfl, rfl⟩
  same _ := ⟨rfl, rfl, rfl⟩
  parent p := (if_neg fun h => List.not_mem_nil h.1).symm
  state _ := Or.inl rfl
  woken h := by
    obtain ⟨z, hz, -⟩ := h
    exact absurd hz List.not_mem_nil

/-- One slot. -/
theorem adopted_adopt (s : Sys nproc) (a : Fin nproc) :
    Adopted init cur [a] s (adopt init cur s a) := by
  rw [adopt]
  by_cases hparent : (s.proc a).parent = some cur
  · rw [if_pos hparent]
    by_cases hzombie : (s.proc a).state = .zombie
    · simp only [set, wakeup1, update_self, hzombie, if_true]
      refine ⟨⟨rfl, rfl⟩, ?_, ?_, ?_, ?_⟩
      all_goals grind
    · simp only [set, wakeup1, update_self, hzombie, if_false]
      refine ⟨⟨rfl, rfl⟩, ?_, ?_, ?_, ?_⟩
      all_goals grind
  · rw [if_neg hparent]
    refine ⟨⟨rfl, rfl⟩, ?_, ?_, ?_, ?_⟩
    all_goals grind

/-- One part of the table after the other. -/
theorem Adopted.append {l l' : List (Fin nproc)} {t u : Sys nproc} (h : Adopted init cur l s t)
    (h' : Adopted init cur l' t u) (hdisjoint : ∀ p ∈ l, p ∉ l') :
    Adopted init cur (l ++ l') s u := by
  obtain ⟨hrest, hsame, hparent, hstate, hwoken⟩ := h
  obtain ⟨hrest', hsame', hparent', hstate', hwoken'⟩ := h'
  refine ⟨⟨hrest'.1.trans hrest.1, hrest'.2.trans hrest.2⟩, fun p => ?_, fun p => ?_,
    fun p => ?_, fun hz p hp => ?_⟩
  · grind
  · have hd := hdisjoint p
    grind
  · grind
  · obtain ⟨z, hz, hzparent, hzstate⟩ := hz
    have hsleeping : (t.proc p).state = .sleeping := by grind
    rcases List.mem_append.mp hz with hz | hz
    · exact hwoken ⟨z, hz, hzparent, hzstate⟩ p hsleeping
    · rw [← (hsame p).2.1]
      refine hwoken' ⟨z, hz, ?_, ?_⟩ p hp
      · have hd := hdisjoint z
        grind
      · grind

theorem adopted_foldl :
    ∀ {l : List (Fin nproc)} {s : Sys nproc}, l.Nodup →
      Adopted init cur l s (l.foldl (adopt init cur) s)
  | [], s, _ => adopted_nil s
  | a :: l, s, hl => by
    obtain ⟨ha, hl⟩ := List.nodup_cons.mp hl
    refine (adopted_adopt s a).append (adopted_foldl hl) fun p hp => ?_
    rw [List.mem_singleton.mp hp]
    exact ha

/-- **What `exit` does**: the process is a zombie, its children are those of `initproc`; its
parent does not sleep in `wait`, and if it leaves a zombie, nor does `initproc`. -/
structure Exited (init cur : Fin nproc) (s t : Sys nproc) : Prop where
  rest : t.nextpid = s.nextpid ∧ t.call = s.call
  same : ∀ p, (t.proc p).pid = (s.proc p).pid ∧ (t.proc p).chan = (s.proc p).chan ∧
    (t.proc p).killed = (s.proc p).killed
  parent : ∀ p, (t.proc p).parent =
    if (s.proc p).parent = some cur then some init else (s.proc p).parent
  zombie : (t.proc cur).state = .zombie
  state : ∀ p, p ≠ cur → (t.proc p).state = (s.proc p).state ∨
    (s.proc p).state = .sleeping ∧ (t.proc p).state = .runnable
  wokenParent : ∀ q p, (s.proc cur).parent = some q → (t.proc p).state = .sleeping →
    (s.proc p).chan ≠ some (.proc q)
  wokenInit : (∃ z, (s.proc z).parent = some cur ∧ (s.proc z).state = .zombie) →
    ∀ p, (t.proc p).state = .sleeping → (s.proc p).chan ≠ some (.proc init)

theorem exited_exit (s : Sys nproc) (init cur : Fin nproc) :
    Exited init cur s (s.exit init cur) := by
  obtain ⟨t, ht⟩ : ∃ t : Sys nproc, t = (match (s.proc cur).parent with
    | some q => s.wakeup1 (.proc q)
    | none => s) := ⟨_, rfl⟩
  have hwoken : t.nextpid = s.nextpid ∧ t.call = s.call ∧
      (∀ p, (t.proc p).pid = (s.proc p).pid ∧ (t.proc p).chan = (s.proc p).chan ∧
        (t.proc p).killed = (s.proc p).killed ∧ (t.proc p).parent = (s.proc p).parent) ∧
      (∀ p, (t.proc p).state = (s.proc p).state ∨
        (s.proc p).state = .sleeping ∧ (t.proc p).state = .runnable) ∧
      ∀ q p, (s.proc cur).parent = some q → (t.proc p).state = .sleeping →
        (s.proc p).chan ≠ some (.proc q) := by
    rw [ht]
    cases hparent : (s.proc cur).parent with
    | none => grind
    | some q =>
      simp only [wakeup1]
      grind
  obtain ⟨hnext, hcall, hsame, hstate, hparent⟩ := hwoken
  have hadopted : Adopted init cur (List.finRange nproc) t
      ((List.finRange nproc).foldl (adopt init cur) t) := adopted_foldl (List.nodup_finRange nproc)
  obtain ⟨hrest', hsame', hparent', hstate', hwoken'⟩ := hadopted
  have hall : ∀ p : Fin nproc, p ∈ List.finRange nproc := List.mem_finRange
  rw [exit, ← ht]
  simp only [set]
  refine ⟨⟨hrest'.1.trans hnext, hrest'.2.trans hcall⟩, ?_, ?_, ?_, ?_, ?_, ?_⟩
  · grind
  · grind
  · grind
  · grind
  · grind
  · rintro ⟨z, hz, hzombie⟩ p hp
    have hz' : (t.proc z).parent = some cur ∧ (t.proc z).state = .zombie := by grind
    have hnot := hwoken' ⟨z, hall z, hz'⟩ p
    grind

/-- What a round of `wait` does: it frees a zombie child, fails, or sleeps as there are children,
no zombie among them, and the process is not killed. -/
theorem wait_cases (s : Sys nproc) (cur : Fin nproc) :
    (∃ p, (s.proc p).parent = some cur ∧ (s.proc p).state = .zombie ∧
      s.wait cur = ((s.set p { s.proc p with
        pid := 0, parent := none, killed := false, state := .unused }).move cur .user,
        .waited (s.proc p).pid)) ∨
    s.wait cur = (s.move cur .user, .failed) ∨
    (∀ p, (s.proc p).parent = some cur → (s.proc p).state ≠ .zombie) ∧
      (∃ p, (s.proc p).parent = some cur) ∧ (s.proc cur).killed = false ∧
      s.wait cur = ((s.set cur { s.proc cur with
        chan := some (.proc cur), state := .sleeping }).move cur .waiting, .none) := by
  rw [wait]
  split
  · rename_i p hp
    have hzombie := of_find hp
    rw [decide_eq_true_eq] at hzombie
    exact Or.inl ⟨p, hzombie.1, hzombie.2, rfl⟩
  · rename_i hnone
    split
    · exact Or.inr (Or.inl rfl)
    · rename_i hsleeps
      refine Or.inr (Or.inr ⟨fun p hparent hzombie => ?_, ?_, ?_, rfl⟩)
      · exact of_decide_eq_false (find_eq_none.mp hnone p) ⟨hparent, hzombie⟩
      · by_contra hall
        refine hsleeps (Or.inl (find_eq_none.mpr fun p => decide_eq_false fun hp => ?_))
        exact hall ⟨p, hp⟩
      · exact Bool.eq_false_iff.mpr fun hkilled => hsleeps (Or.inr hkilled)

/-- **What a step does.** -/
inductive Moves (init : Fin nproc) (s : Sys nproc) : Event nproc → Out → Sys nproc → Prop where
  | schedule (p : Fin nproc) (hstate : (s.proc p).state = .runnable) :
      Moves init s (.schedule p) .none (s.run p)
  | resume (p : Fin nproc) (hstate : (s.proc p).state = .runnable) (hcall : s.call p = .waiting) :
      Moves init s (.schedule p) ((s.run p).wait p).2 ((s.run p).wait p).1
  | yield (p : Fin nproc) (hstate : (s.proc p).state = .running) :
      Moves init s (.yield p) .none (s.set p { s.proc p with state := .runnable })
  | sleep (p : Fin nproc) (c : ℕ) (hstate : (s.proc p).state = .running) :
      Moves init s (.sleep p c) .none
        (s.set p { s.proc p with chan := some (.other c), state := .sleeping })
  | wakeup (c : ℕ) : Moves init s (.wakeup c) .none (s.wakeup1 (.other c))
  | kill (pid : ℕ) :
      Moves init s (.kill pid) (if (s.kill pid).2 then .none else .failed) (s.kill pid).1
  | fault (p : Fin nproc) (hstate : (s.proc p).state = .running) :
      Moves init s (.fault p) (.trapped (s.proc p).pid)
        (s.set p { s.proc p with killed := true })
  | noproc (p : Fin nproc) : Moves init s (.allocproc p) .failed s
  | allocproc (p np : Fin nproc) (hstate : (s.proc p).state = .running) (hcall : s.call p = .user)
      (hfree : (s.proc np).state = .unused) :
      Moves init s (.allocproc p) .none (({ s with nextpid := (s.nextpid + 1) % 2 ^ 32 }.set np
        { s.proc np with state := .embryo, pid := s.nextpid }).move p (.forking np))
  | forkFails (p np : Fin nproc) (hcall : s.call p = .forking np) :
      Moves init s (.forkFails p) .failed
        ((s.set np { s.proc np with state := .unused }).move p .user)
  | setParent (p np : Fin nproc) (hcall : s.call p = .forking np) :
      Moves init s (.setParent p) .none
        ((s.set np { s.proc np with parent := some p }).move p (.copied np))
  | forkDone (p np : Fin nproc) (hcall : s.call p = .copied np) :
      Moves init s (.forkDone p) (.forked (s.proc np).pid)
        ((s.set np { s.proc np with state := .runnable }).move p .user)
  | exit (p : Fin nproc) (hstate : (s.proc p).state = .running) (hcall : s.call p = .user)
      (hne : p ≠ init) : Moves init s (.exit p) .none (s.exit init p)
  | wait (p : Fin nproc) (hstate : (s.proc p).state = .running) (hcall : s.call p = .user) :
      Moves init s (.wait p) (s.wait p).2 (s.wait p).1

theorem Step.moves (h : Step init s e o s') : Moves init s e o s' := by
  rw [Step] at h
  cases e with
  | schedule p =>
    rw [step] at h
    split_ifs at h with hstate hcall
    · obtain ⟨rfl, rfl⟩ := Prod.mk.inj (Option.some.inj h)
      exact .resume p hstate hcall
    · obtain ⟨rfl, rfl⟩ := Prod.mk.inj (Option.some.inj h)
      exact .schedule p hstate
  | yield p =>
    rw [step] at h
    split_ifs at h with hstate
    obtain ⟨rfl, rfl⟩ := Prod.mk.inj (Option.some.inj h)
    exact .yield p hstate
  | sleep p c =>
    rw [step] at h
    split_ifs at h with hstate
    obtain ⟨rfl, rfl⟩ := Prod.mk.inj (Option.some.inj h)
    exact .sleep p c hstate.1
  | wakeup c =>
    obtain ⟨rfl, rfl⟩ := Prod.mk.inj (Option.some.inj h)
    exact .wakeup c
  | kill pid =>
    obtain ⟨rfl, rfl⟩ := Prod.mk.inj (Option.some.inj h)
    exact .kill pid
  | fault p =>
    rw [step] at h
    split_ifs at h with hstate
    obtain ⟨rfl, rfl⟩ := Prod.mk.inj (Option.some.inj h)
    exact .fault p hstate.1
  | allocproc p =>
    rw [step] at h
    split at h
    · rename_i hstate
      split at h
      · obtain ⟨rfl, rfl⟩ := Prod.mk.inj (Option.some.inj h)
        exact .noproc p
      · rename_i np hnp
        obtain ⟨rfl, rfl⟩ := Prod.mk.inj (Option.some.inj h)
        exact .allocproc p np hstate.1 hstate.2 (of_decide_eq_true (of_find hnp))
    · cases h
  | forkFails p =>
    rw [step] at h
    split at h
    · rename_i np hcall
      split_ifs at h
      obtain ⟨rfl, rfl⟩ := Prod.mk.inj (Option.some.inj h)
      exact .forkFails p np hcall
    · cases h
  | setParent p =>
    rw [step] at h
    split at h
    · rename_i np hcall
      split_ifs at h
      obtain ⟨rfl, rfl⟩ := Prod.mk.inj (Option.some.inj h)
      exact .setParent p np hcall
    · cases h
  | forkDone p =>
    rw [step] at h
    split at h
    · rename_i np hcall
      split_ifs at h
      obtain ⟨rfl, rfl⟩ := Prod.mk.inj (Option.some.inj h)
      exact .forkDone p np hcall
    · cases h
  | exit p =>
    rw [step] at h
    split_ifs at h with hstate
    obtain ⟨rfl, rfl⟩ := Prod.mk.inj (Option.some.inj h)
    exact .exit p hstate.1 hstate.2.1 hstate.2.2
  | wait p =>
    rw [step] at h
    split_ifs at h with hstate
    obtain ⟨rfl, rfl⟩ := Prod.mk.inj (Option.some.inj h)
    exact .wait p hstate.1 hstate.2

end Sys

end Processes
end Xv6
end SystemsProjects
