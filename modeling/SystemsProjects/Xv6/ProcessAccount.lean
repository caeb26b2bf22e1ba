import SystemsProjects.Xv6.ProcessTree

/-!
# No process is lost, and none is killed for another

A pid is given out once, by `allocproc`, as long as the `int` that counts them does not wrap:
`nextpid` is 2 at the start, so that is for `maxAllocs` of them.  `fork` returns the pid when the
process starts, and `wait` returns it when the slot is freed.  In between it is the pid of one slot
of the table.

The flag `killed` of a slot is set by `kill` and cleared by `wait` only.  `kill` looks for a slot
by its pid, whatever its state is; a slot whose `fork` has failed keeps its pid, and an unused slot
has the pid 0.  So the flag means that the process itself was killed as long as no `kill` finds a
slot that holds no process, and not otherwise.
-/

namespace SystemsProjects
namespace Xv6
namespace Processes

open Lib Function

variable {nproc : ℕ}

/-! ## What a step changes -/

/-- The pids, the stages, the flags and `nextpid`. -/
structure View (nproc : ℕ) where
  pid : Fin nproc → ℕ
  stage : Fin nproc → Stage
  killed : Fin nproc → Bool
  next : ℕ

/-- The pid of a slot. -/
def Sys.pid (s : Sys nproc) (p : Fin nproc) : ℕ := (s.proc p).pid

/-- The flag `killed` of a slot. -/
def Sys.killed (s : Sys nproc) (p : Fin nproc) : Bool := (s.proc p).killed

/-- What is counted of the table. -/
def Sys.view (s : Sys nproc) : View nproc := ⟨s.pid, s.stage, s.killed, s.nextpid⟩

/-- The pid of a process that starts. -/
def Out.born : Out → List ℕ
  | .forked pid => [pid]
  | _ => []

/-- The pid of a zombie that is freed. -/
def Out.reaped : Out → List ℕ
  | .waited pid => [pid]
  | _ => []

/-- The pid that a `kill` has found, or that of a process that has misbehaved. -/
def Event.marks : Event nproc → Out → List ℕ
  | .kill pid, .none => [pid]
  | .fault _, .trapped pid => [pid]
  | _, _ => []

/-- A pid is given out. -/
def Event.allocates : Event nproc → Out → Bool
  | .allocproc _, .none => true
  | _, _ => false

/-- The number of pids that a run has given out. -/
def allocs (tr : List (Event nproc × Out)) : ℕ := tr.countP fun r => r.1.allocates r.2

/-- As many make `nextpid`, which starts with 2, INT_MAX. -/
def maxAllocs : ℕ := 2 ^ 31 - 3

/-- What a step does to the pids, the stages and the flags. -/
inductive Changes (v : View nproc) : Event nproc → Out → View nproc → Prop where
  | quiet (e : Event nproc) (o : Out) (hborn : o.born = []) (hreaped : o.reaped = [])
      (hmarks : e.marks o = []) (halloc : e.allocates o = false) : Changes v e o v
  | alloc (p np : Fin nproc) (hnp : v.stage np = .free) :
      Changes v (.allocproc p) .none { v with
        pid := update v.pid np v.next
        stage := update v.stage np .embryo
        next := (v.next + 1) % 2 ^ 32 }
  | fails (p np : Fin nproc) (hnp : v.stage np = .embryo) :
      Changes v (.forkFails p) .failed { v with stage := update v.stage np .free }
  | start (p np : Fin nproc) (hnp : v.stage np = .embryo) :
      Changes v (.forkDone p) (.forked (v.pid np)) { v with stage := update v.stage np .alive }
  | exit (p : Fin nproc) (hp : v.stage p = .alive) :
      Changes v (.exit p) .none { v with stage := update v.stage p .zombie }
  | reap (e : Event nproc) (p : Fin nproc) (hp : v.stage p = .zombie) (he : ∀ o, e.marks o = []) :
      Changes v e (.waited (v.pid p)) { v with
        pid := update v.pid p 0, stage := update v.stage p .free
        killed := update v.killed p false }
  | mark (e : Event nproc) (o : Out) (p : Fin nproc) (hborn : o.born = []) (hreaped : o.reaped = [])
      (hmarks : e.marks o = [v.pid p]) (hp : v.stage p = .alive ∨ e = .kill (v.pid p)) :
      Changes v e o { v with killed := update v.killed p true }

namespace Sys

variable {s s' : Sys nproc} {init p : Fin nproc} {e : Event nproc} {o : Out}

@[simp] theorem pid_set (s : Sys nproc) (p : Fin nproc) (r : Proc nproc) :
    (s.set p r).pid = update s.pid p r.pid :=
  view_set (·.pid) s p r

theorem killed_set (s : Sys nproc) (p : Fin nproc) (r : Proc nproc) :
    (s.set p r).killed = update s.killed p r.killed :=
  view_set (·.killed) s p r

theorem view_move (s : Sys nproc) (p : Fin nproc) (c : Call nproc) :
    (s.move p c).view = s.view := rfl

theorem view_set_eq (s : Sys nproc) (p : Fin nproc) (r : Proc nproc) :
    (s.set p r).view = ⟨update s.pid p r.pid, update s.stage p r.state.stage,
      update s.killed p r.killed, s.nextpid⟩ := by
  rw [view, pid_set, stage_set, killed_set]
  rfl

/-- A slot that keeps its pid, its stage and its flag. -/
theorem view_set_same {r : Proc nproc} (hpid : r.pid = (s.proc p).pid)
    (hstage : r.state.stage = (s.proc p).state.stage) (hkilled : r.killed = (s.proc p).killed) :
    (s.set p r).view = s.view := by
  have h₁ : update s.pid p (s.proc p).pid = s.pid := update_eq_self p s.pid
  have h₂ : update s.stage p (s.proc p).state.stage = s.stage := update_eq_self p s.stage
  have h₃ : update s.killed p (s.proc p).killed = s.killed := update_eq_self p s.killed
  rw [view_set_eq, hpid, hstage, hkilled, h₁, h₂, h₃]
  rfl

theorem view_run (hstate : (s.proc p).state = .runnable) : (s.run p).view = s.view :=
  view_set_same rfl (by rw [hstate]; rfl) rfl

theorem view_wakeup1 (s : Sys nproc) (c : Chan nproc) : (s.wakeup1 c).view = s.view := by
  have hpid : (s.wakeup1 c).pid = s.pid := by
    funext q
    simp only [pid, wakeup1]
    grind
  have hstage : (s.wakeup1 c).stage = s.stage := by
    funext q
    simp only [stage, wakeup1]
    grind [State.stage]
  have hkilled : (s.wakeup1 c).killed = s.killed := by
    funext q
    simp only [killed, wakeup1]
    grind
  rw [view, hpid, hstage, hkilled]
  rfl

theorem changes_wait (hstate : (s.proc p).state = .running) (he : ∀ o, e.marks o = [])
    (halloc : e.allocates .none = false) : Changes s.view e (s.wait p).2 (s.wait p).1.view := by
  rcases s.wait_cases p with ⟨q, -, hzombie, hwait⟩ | hwait | ⟨-, -, -, hwait⟩
  · rw [hwait, view_move, view_set_eq]
    exact .reap e q (State.stage_eq_zombie.mpr hzombie) he
  · rw [hwait]
    exact .quiet e _ rfl rfl (he _) (by cases e <;> rfl)
  · have hsame : (s.set p { s.proc p with
        chan := some (.proc p), state := .sleeping }).view = s.view :=
      view_set_same rfl (by rw [hstate]; rfl) rfl
    rw [hwait, view_move, hsame]
    exact .quiet e _ rfl rfl (he _) halloc

theorem changes_kill (s : Sys nproc) (k : ℕ) :
    Changes s.view (.kill k) (if (s.kill k).2 then .none else .failed) (s.kill k).1.view := by
  rw [kill]
  split
  · rename_i p hp
    have hpid : (s.proc p).pid = k := of_decide_eq_true (of_find hp)
    have h₁ : update s.pid p (s.proc p).pid = s.pid := update_eq_self p s.pid
    have h₂ : update s.stage p (s.proc p).state.stage = s.stage := update_eq_self p s.stage
    have hstage : (if (s.proc p).state = .sleeping then State.runnable
        else (s.proc p).state).stage = (s.proc p).state.stage := by
      grind [State.stage]
    rw [view_set_eq, hstage, h₁, h₂]
    rw [← hpid]
    exact .mark _ .none p rfl rfl rfl (Or.inr rfl)
  · exact .quiet _ _ rfl rfl rfl rfl

theorem changes_of_view_eq (hview : s'.view = s.view) (hborn : o.born = [])
    (hreaped : o.reaped = []) (hmarks : e.marks o = []) (halloc : e.allocates o = false) :
    Changes s.view e o s'.view := by
  rw [hview]
  exact .quiet e o hborn hreaped hmarks halloc

theorem Good.changes (h : Good init s) (hstep : Step init s e o s') :
    Changes s.view e o s'.view := by
  cases hstep.moves with
  | schedule p hstate => exact changes_of_view_eq (view_run hstate) rfl rfl rfl rfl
  | resume p hstate hcall =>
    have hrunning : ((s.run p).proc p).state = .running := by
      simp only [Sys.run, Sys.set, update_self]
    rw [← view_run hstate]
    exact changes_wait hrunning (fun _ => rfl) rfl
  | yield p hstate =>
    exact changes_of_view_eq (view_set_same rfl (by rw [hstate]; rfl) rfl) rfl rfl rfl rfl
  | sleep p c hstate =>
    exact changes_of_view_eq (view_set_same rfl (by rw [hstate]; rfl) rfl) rfl rfl rfl rfl
  | wakeup c => exact changes_of_view_eq (view_wakeup1 s _) rfl rfl rfl rfl
  | kill k => exact changes_kill s k
  | fault p hstate =>
    have h₁ : update s.pid p (s.proc p).pid = s.pid := update_eq_self p s.pid
    have h₂ : update s.stage p (s.proc p).state.stage = s.stage := update_eq_self p s.stage
    rw [view_set_eq, h₁, h₂]
    exact .mark _ _ p rfl rfl rfl (Or.inl (stage_of_running hstate))
  | noproc p => exact .quiet _ _ rfl rfl rfl rfl
  | allocproc p np hstate hcall hfree =>
    have hnp : s.view.stage np = .free := congrArg State.stage hfree
    have h₃ : update s.killed np (s.proc np).killed = s.killed := update_eq_self np s.killed
    have hview := view_set_eq { s with nextpid := (s.nextpid + 1) % 2 ^ 32 } np
      { s.proc np with state := .embryo, pid := s.nextpid }
    rw [view_move, hview]
    exact Eq.mp (congrArg (fun f => Changes s.view _ _ ⟨_, _, f, _⟩) h₃.symm)
      (Changes.alloc p np hnp)
  | forkFails p np hcall =>
    have h₁ : update s.pid np (s.proc np).pid = s.pid := update_eq_self np s.pid
    have h₃ : update s.killed np (s.proc np).killed = s.killed := update_eq_self np s.killed
    rw [view_move, view_set_eq, h₁, h₃]
    exact .fails p np (h.forks.forking p np hcall).1
  | setParent p np hcall => exact changes_of_view_eq (view_set_same rfl rfl rfl) rfl rfl rfl rfl
  | forkDone p np hcall =>
    have h₁ : update s.pid np (s.proc np).pid = s.pid := update_eq_self np s.pid
    have h₃ : update s.killed np (s.proc np).killed = s.killed := update_eq_self np s.killed
    rw [view_move, view_set_eq, h₁, h₃]
    exact .start p np (h.forks.copied p np hcall).1
  | exit p hstate hcall hne =>
    obtain ⟨⟨hnext, -⟩, hsame, -⟩ := exited_exit s init p
    have hview : (s.exit init p).view = { s.view with stage := update s.stage p .zombie } := by
      have hpid : (s.exit init p).pid = s.pid := funext fun q => (hsame q).1
      have hkilled : (s.exit init p).killed = s.killed := funext fun q => (hsame q).2.2
      rw [view, hpid, hkilled, hnext, stage_exit]
      rfl
    rw [hview]
    exact .exit p (stage_of_running hstate)
  | wait p hstate hcall => exact changes_wait hstate (fun _ => rfl) rfl

end Sys

/-! ## The pids in the table -/

/-- The pids: every slot in use has one, and no two slots have the same. -/
structure Pids (pid : Fin nproc → ℕ) (stage : Fin nproc → Stage) (next : ℕ) : Prop where
  lt : ∀ p, pid p < next
  unique : ∀ p q, pid p = pid q → pid p ≠ 0 → p = q
  pos : ∀ p, stage p ≠ .free → pid p ≠ 0

section Pids

variable {pid : Fin nproc → ℕ} {next : ℕ} {stage stage' : Fin nproc → Stage} {p np : Fin nproc}

theorem Pids.alloc (h : Pids pid stage next) :
    Pids (update pid np next) (update stage np .embryo) (next + 1) := by
  have hnext : next ≠ 0 := Nat.ne_zero_of_lt (h.lt np)
  obtain ⟨hlt, hunique, hpos⟩ := h
  refine ⟨?_, ?_, ?_⟩
  all_goals grind

theorem Pids.mono (h : Pids pid stage next) (hstage : ∀ p, stage p = .free → stage' p = .free) :
    Pids pid stage' next :=
  ⟨h.lt, h.unique, fun p hp => h.pos p fun hfree => hp (hstage p hfree)⟩

theorem Pids.reap (h : Pids pid stage next) :
    Pids (update pid p 0) (update stage p .free) next := by
  have hnext : next ≠ 0 := Nat.ne_zero_of_lt (h.lt p)
  obtain ⟨hlt, hunique, hpos⟩ := h
  refine ⟨?_, ?_, ?_⟩
  all_goals grind

/-- The pids are given out one after the other. -/
theorem Changes.next_eq {v v' : View nproc} {e : Event nproc} {o : Out} (h : Changes v e o v')
    (hroom : v.next + 1 < 2 ^ 32) : v'.next = v.next + if e.allocates o then 1 else 0 := by
  cases h with
  | quiet e o hborn hreaped hmarks halloc => simp [halloc]
  | alloc p np hnp => exact Nat.mod_eq_of_lt hroom
  | fails p np hnp => rfl
  | start p np hnp => rfl
  | exit p hp => rfl
  | reap e p hp he => cases e <;> rfl
  | mark e o p hborn hreaped hmarks hp => cases e <;> first | rfl | cases hmarks

theorem Pids.step {v v' : View nproc} {e : Event nproc} {o : Out}
    (h : Pids v.pid v.stage v.next) (hroom : v.next + 1 < 2 ^ 32) (hchanges : Changes v e o v') :
    Pids v'.pid v'.stage v'.next := by
  cases hchanges with
  | quiet e o hborn hreaped hmarks halloc => exact h
  | alloc p np hnp =>
    rw [Nat.mod_eq_of_lt hroom]
    exact h.alloc
  | fails p np hnp => exact h.mono fun q hq => by grind
  | start p np hnp => exact h.mono fun q hq => by grind
  | exit p hp => exact h.mono fun q hq => by grind
  | reap e p hp he => exact h.reap
  | mark e o p hborn hreaped hmarks hp => exact h

end Pids

/-! ## The pids that are given out -/

/-- The processes that have started, and those that `wait` has returned. -/
structure Account (born reaped : List ℕ) (pid : Fin nproc → ℕ) (stage : Fin nproc → Stage)
    (next : ℕ) : Prop where
  born_nodup : born.Nodup
  reaped_nodup : reaped.Nodup
  bound : ∀ k ∈ born, k ≠ 0 ∧ k < next
  gone : ∀ k ∈ reaped, k ∈ born ∧ ∀ p, pid p ≠ k
  held : ∀ p, stage p = .alive ∨ stage p = .zombie → pid p ∈ born
  kept : ∀ k ∈ born, k ∈ reaped ∨ ∃ p, (stage p = .alive ∨ stage p = .zombie) ∧ pid p = k

section Account

variable {born reaped : List ℕ} {pid : Fin nproc → ℕ} {stage stage' : Fin nproc → Stage}
  {next : ℕ} {p np : Fin nproc}

theorem Account.mono (h : Account born reaped pid stage next)
    (hstage : ∀ p, stage' p = .alive ∨ stage' p = .zombie ↔
      stage p = .alive ∨ stage p = .zombie) : Account born reaped pid stage' next where
  born_nodup := h.born_nodup
  reaped_nodup := h.reaped_nodup
  bound := h.bound
  gone := h.gone
  held p hp := h.held p ((hstage p).mp hp)
  kept k hk := by
    refine (h.kept k hk).imp_right ?_
    rintro ⟨p, hp, hpid⟩
    exact ⟨p, (hstage p).mpr hp, hpid⟩

theorem Account.alloc (h : Account born reaped pid stage next) (hnp : stage np = .free) :
    Account born reaped (update pid np next) (update stage np .embryo) (next + 1) := by
  obtain ⟨hborn, hreaped, hbound, hgone, hheld, hkept⟩ := h
  refine ⟨hborn, hreaped, fun k hk => ?_, fun k hk => ?_, fun p hp => ?_, fun k hk => ?_⟩
  · exact ⟨(hbound k hk).1, Nat.lt_succ_of_lt (hbound k hk).2⟩
  · have hlt := hbound k (hgone k hk).1
    refine ⟨(hgone k hk).1, fun p => ?_⟩
    have hp := (hgone k hk).2 p
    grind
  · grind
  · refine (hkept k hk).imp_right ?_
    rintro ⟨p, hp, hpid⟩
    exact ⟨p, by grind⟩

/-- The child starts. -/
theorem Account.start (h : Account born reaped pid stage next) (hpids : Pids pid stage next)
    (hnp : stage np = .embryo) :
    Account (born ++ [pid np]) reaped pid (update stage np .alive) next := by
  obtain ⟨hborn, hreaped, hbound, hgone, hheld, hkept⟩ := h
  obtain ⟨hlt, hunique, hpos⟩ := hpids
  have hpos' := hpos np (by rw [hnp]; decide)
  have hnew : pid np ∉ born := by
    intro hmem
    rcases hkept _ hmem with hmem' | ⟨p, hp, hpid⟩
    · exact (hgone _ hmem').2 np rfl
    · have hsame := hunique p np hpid (by rw [hpid]; exact hpos')
      grind
  refine ⟨?_, hreaped, fun k hk => ?_, fun k hk => ?_, fun p hp => ?_, fun k hk => ?_⟩
  · exact List.nodup_append.mpr ⟨hborn, List.nodup_singleton _, by grind⟩
  · grind
  · exact ⟨List.mem_append_left _ (hgone k hk).1, (hgone k hk).2⟩
  · grind
  · rcases List.mem_append.mp hk with hk | hk
    · refine (hkept k hk).imp_right ?_
      rintro ⟨p, hp, hpid⟩
      exact ⟨p, by grind⟩
    · exact Or.inr ⟨np, by grind⟩

/-- A zombie is freed. -/
theorem Account.reap (h : Account born reaped pid stage next) (hpids : Pids pid stage next)
    (hp : stage p = .zombie) :
    Account born (reaped ++ [pid p]) (update pid p 0) (update stage p .free) next := by
  obtain ⟨hborn, hreaped, hbound, hgone, hheld, hkept⟩ := h
  obtain ⟨hlt, hunique, hpos⟩ := hpids
  have hpos' := hpos p (by rw [hp]; decide)
  have hmem := hheld p (Or.inr hp)
  refine ⟨hborn, ?_, hbound, fun k hk => ?_, fun q hq => ?_, fun k hk => ?_⟩
  · refine List.nodup_append.mpr ⟨hreaped, List.nodup_singleton _, ?_⟩
    intro a ha b hb hab
    rw [List.mem_singleton.mp hb] at hab
    exact (hgone a ha).2 p hab.symm
  · rcases List.mem_append.mp hk with hk | hk
    · refine ⟨(hgone k hk).1, fun q => ?_⟩
      have hk0 := (hbound k (hgone k hk).1).1
      have hq := (hgone k hk).2 q
      grind
    · rw [List.mem_singleton.mp hk]
      refine ⟨hmem, fun q => ?_⟩
      have hq := hunique p q
      grind
  · grind
  · rcases hkept k hk with hk | ⟨q, hq, hqpid⟩
    · exact Or.inl (List.mem_append_left _ hk)
    · by_cases hqp : q = p
      · left
        rw [← hqpid, hqp]
        exact List.mem_append_right _ (List.mem_singleton_self _)
      · exact Or.inr ⟨q, by grind⟩

theorem Account.step {v v' : View nproc} {e : Event nproc} {o : Out}
    (h : Account born reaped v.pid v.stage v.next) (hpids : Pids v.pid v.stage v.next)
    (hroom : v.next + 1 < 2 ^ 32) (hchanges : Changes v e o v') :
    Account (born ++ o.born) (reaped ++ o.reaped) v'.pid v'.stage v'.next := by
  cases hchanges with
  | quiet e o hborn hreaped hmarks halloc =>
    rw [hborn, hreaped, List.append_nil, List.append_nil]
    exact h
  | alloc p np hnp =>
    simp only [Out.born, Out.reaped, List.append_nil, Nat.mod_eq_of_lt hroom]
    exact h.alloc hnp
  | fails p np hnp =>
    simp only [Out.born, Out.reaped, List.append_nil]
    exact h.mono fun q => by grind
  | start p np hnp =>
    simp only [Out.born, Out.reaped, List.append_nil]
    exact h.start hpids hnp
  | exit p hp =>
    simp only [Out.born, Out.reaped, List.append_nil]
    exact h.mono fun q => by grind
  | reap e p hp he =>
    simp only [Out.born, Out.reaped, List.append_nil]
    exact h.reap hpids hp
  | mark e o p hborn hreaped hmarks hp =>
    rw [hborn, hreaped, List.append_nil, List.append_nil]
    exact h

end Account

/-! ## The flags -/

/-- The flag of a process is set if its pid is marked; that of a slot without a process is not
set. -/
structure Marked (marks : List ℕ) (v : View nproc) : Prop where
  fresh : ∀ p, v.stage p = .free ∨ v.stage p = .embryo → v.killed p = false
  flag : ∀ p, v.stage p ≠ .free → (v.killed p = true ↔ v.pid p ∈ marks)
  bound : ∀ k ∈ marks, k < v.next

theorem Marked.step {marks : List ℕ} {v v' : View nproc} {e : Event nproc} {o : Out}
    (h : Marked marks v) (hpids : Pids v.pid v.stage v.next) (hroom : v.next + 1 < 2 ^ 32)
    (haimed : ∀ p, e = .kill (v.pid p) → v.stage p = .alive ∨ v.stage p = .zombie)
    (hchanges : Changes v e o v') : Marked (marks ++ e.marks o) v' := by
  obtain ⟨hfresh, hflag, hbound⟩ := h
  obtain ⟨hlt, hunique, hpos⟩ := hpids
  cases hchanges with
  | quiet e o hborn hreaped hmarks halloc =>
    rw [hmarks, List.append_nil]
    exact ⟨hfresh, hflag, hbound⟩
  | alloc p np hnp =>
    simp only [Event.marks, List.append_nil, Nat.mod_eq_of_lt hroom]
    refine ⟨fun q hq => ?_, fun q hq => ?_, fun k hk => Nat.lt_succ_of_lt (hbound k hk)⟩
    · grind
    · grind
  | fails p np hnp =>
    simp only [Event.marks, List.append_nil]
    refine ⟨fun q hq => ?_, fun q hq => ?_, hbound⟩
    · grind
    · grind
  | start p np hnp =>
    simp only [Event.marks, List.append_nil]
    refine ⟨fun q hq => ?_, fun q hq => ?_, hbound⟩
    · grind
    · grind
  | exit p hp =>
    simp only [Event.marks, List.append_nil]
    refine ⟨fun q hq => ?_, fun q hq => ?_, hbound⟩
    · grind
    · grind
  | reap e p hp he =>
    rw [he, List.append_nil]
    refine ⟨fun q hq => ?_, fun q hq => ?_, hbound⟩
    · grind
    · grind
  | mark e o p hborn hreaped hmarks hp =>
    have hin : v.stage p = .alive ∨ v.stage p = .zombie := hp.elim Or.inl (haimed p)
    have hpos' := hpos p (by rcases hin with hin | hin <;> rw [hin] <;> decide)
    rw [hmarks]
    refine ⟨fun q hq => ?_, fun q hq => ?_, fun k hk => ?_⟩
    · grind
    · have hq' := hunique q p
      grind
    · grind

namespace Sys

variable {s s' : Sys nproc} {init p : Fin nproc} {tr : List (Event nproc × Out)}
  {e : Event nproc} {o : Out}

/-- The table, with as many pids to be given out as the run does. -/
structure Counted (init : Fin nproc) (s : Sys nproc) (tr : List (Event nproc × Out)) : Prop where
  good : Good init s
  pids : Pids s.pid s.stage s.nextpid
  room : s.nextpid + allocs tr < 2 ^ 31

theorem counted_boot (init : Fin nproc) (hroom : allocs tr ≤ maxAllocs) :
    Counted init (boot init) tr where
  good := good_boot init
  pids := by
    refine ⟨fun p => ?_, fun p q => ?_, fun p => ?_⟩
    all_goals simp only [pid, stage, boot]
    all_goals grind [State.stage]
  room := by
    simp only [boot]
    rw [maxAllocs] at hroom
    omega

theorem Counted.lt (h : Counted init s tr) : s.view.next + 1 < 2 ^ 32 := by
  have hroom := h.room
  simp only [view]
  omega

theorem Counted.step (h : Counted init s ((e, o) :: tr)) (hstep : Step init s e o s') :
    Counted init s' tr := by
  have hchanges := h.good.changes hstep
  refine ⟨h.good.step hstep, h.pids.step h.lt hchanges, ?_⟩
  have hnext : s'.nextpid = s.nextpid + if e.allocates o then 1 else 0 := hchanges.next_eq h.lt
  have hroom := h.room
  rw [allocs, List.countP_cons] at hroom
  dsimp only at hroom
  rw [hnext, allocs]
  omega

theorem account_run {born reaped : List ℕ} (hrun : Run (Step init) s tr s')
    (h : Counted init s tr) (haccount : Account born reaped s.pid s.stage s.nextpid) :
    Counted init s' [] ∧ Account (born ++ tr.flatMap (·.2.born)) (reaped ++ tr.flatMap (·.2.reaped))
      s'.pid s'.stage s'.nextpid := by
  induction hrun generalizing born reaped with
  | nil s =>
    rw [List.flatMap_nil, List.flatMap_nil, List.append_nil, List.append_nil]
    exact ⟨h, haccount⟩
  | cons hstep hrest ih =>
    rw [List.flatMap_cons, List.flatMap_cons, ← List.append_assoc, ← List.append_assoc]
    exact ih (h.step hstep) (haccount.step h.pids h.lt (h.good.changes hstep))

theorem account_boot (init : Fin nproc) :
    Account [1] [] (boot init).pid (boot init).stage (boot init).nextpid := by
  refine ⟨List.nodup_singleton 1, List.nodup_nil, fun k hk => ?_, fun k hk => ?_, fun p hp => ?_,
    fun k hk => Or.inr ⟨init, ?_⟩⟩
  · rw [List.mem_singleton.mp hk]
    exact ⟨Nat.one_ne_zero, Nat.one_lt_two⟩
  · exact absurd hk List.not_mem_nil
  · simp only [stage, pid, boot] at hp ⊢
    grind [State.stage]
  · rw [List.mem_singleton.mp hk]
    simp only [stage, pid, boot, if_true, State.stage, true_or, true_and]

theorem stage_in_use :
    s.stage p = .alive ∨ s.stage p = .zombie ↔
      (s.proc p).state ≠ .unused ∧ (s.proc p).state ≠ .embryo := by
  rw [stage]
  cases (s.proc p).state <;> simp [State.stage]

/-- **No process is lost, and none is counted twice.**  In every run in which `nextpid` does not
overflow the pids that `fork` has returned, and that of the first process, are different; `wait`
returns each of them at most once and nothing else; and each that it has not returned is the pid of
one slot, which holds a process or a zombie, while no slot has a pid that it has returned. -/
theorem pids_accounted (hrun : Run (Step init) (boot init) tr s) (hroom : allocs tr ≤ maxAllocs) :
    (1 :: tr.flatMap (·.2.born)).Nodup ∧ (tr.flatMap (·.2.reaped)).Nodup ∧
    tr.flatMap (·.2.reaped) ⊆ 1 :: tr.flatMap (·.2.born) ∧
    (∀ k ∈ tr.flatMap (·.2.reaped), ∀ p, (s.proc p).pid ≠ k) ∧
    (∀ k ∈ 1 :: tr.flatMap (·.2.born), k ∉ tr.flatMap (·.2.reaped) →
      ∃! p, (s.proc p).pid = k ∧ (s.proc p).state ≠ .unused ∧ (s.proc p).state ≠ .embryo) ∧
    ∀ p, (s.proc p).state ≠ .unused → (s.proc p).state ≠ .embryo →
      (s.proc p).pid ∈ 1 :: tr.flatMap (·.2.born) := by
  obtain ⟨hcounted, haccount⟩ := account_run hrun (counted_boot init hroom) (account_boot init)
  refine ⟨haccount.born_nodup, haccount.reaped_nodup, fun k hk => (haccount.gone k hk).1,
    fun k hk => (haccount.gone k hk).2, fun k hk hnot => ?_, fun p hunused hembryo =>
      haccount.held p (stage_in_use.mpr ⟨hunused, hembryo⟩)⟩
  obtain ⟨p, hp, hpid⟩ := (haccount.kept k hk).resolve_left hnot
  refine ⟨p, ⟨hpid, stage_in_use.mp hp⟩, fun q hq => ?_⟩
  have hsame : s.pid q = s.pid p := hq.1.trans hpid.symm
  refine hcounted.pids.unique q p hsame ?_
  rw [hsame, hpid]
  exact (haccount.bound k hk).1

/-- The first process forks twice; the first child exits, and is waited for. -/
theorem pids_accounted_oneOfTwo :
    ∃ (tr : List (Event 3 × Out)) (s : Sys 3),
      Run (Step 0) (boot 0) tr s ∧
      (tr.flatMap (·.2.born), tr.flatMap (·.2.reaped), allocs tr) = ([2, 3], [2], 2) ∧
      (1 :: tr.flatMap (·.2.born)).Nodup ∧ (tr.flatMap (·.2.reaped)).Nodup ∧
      tr.flatMap (·.2.reaped) ⊆ 1 :: tr.flatMap (·.2.born) ∧
      (∀ k ∈ tr.flatMap (·.2.reaped), ∀ p, (s.proc p).pid ≠ k) ∧
      (∀ k ∈ 1 :: tr.flatMap (·.2.born), k ∉ tr.flatMap (·.2.reaped) →
        ∃! p, (s.proc p).pid = k ∧ (s.proc p).state ≠ .unused ∧ (s.proc p).state ≠ .embryo) ∧
      ∀ p, (s.proc p).state ≠ .unused → (s.proc p).state ≠ .embryo →
        (s.proc p).pid ∈ 1 :: tr.flatMap (·.2.born) := by
  obtain ⟨tr, s, hrun, hobs⟩ := Run.exists_of_play (f := step (0 : Fin 3)) (s := boot 0)
    (l := [.schedule 0, .allocproc 0, .setParent 0, .forkDone 0, .allocproc 0, .setParent 0,
      .forkDone 0, .wait 0, .schedule 1, .exit 1, .schedule 0])
    (fun r => (r.2.flatMap (·.2.born), r.2.flatMap (·.2.reaped), allocs r.2))
    (v := ([2, 3], [2], 2)) (by decide)
  have hroom : allocs tr = 2 := congrArg (fun x => x.2.2) hobs
  exact ⟨tr, s, hrun, hobs, pids_accounted hrun (by rw [hroom]; decide)⟩

/-! ## Who is killed -/

/-- A `kill` finds no slot without a process. -/
def Aimed (s : Sys nproc) : Event nproc → Prop
  | .kill k => ∀ p, (s.proc p).pid = k →
      (s.proc p).state ≠ .unused ∧ (s.proc p).state ≠ .embryo
  | _ => True

theorem marked_run {marks : List ℕ} (hrun : Run (Guarded Aimed (Step init)) s tr s')
    (h : Counted init s tr) (hmarked : Marked marks s.view) :
    Counted init s' [] ∧ Marked (marks ++ tr.flatMap fun r => r.1.marks r.2) s'.view := by
  induction hrun generalizing marks with
  | nil s =>
    rw [List.flatMap_nil, List.append_nil]
    exact ⟨h, hmarked⟩
  | @cons s t u e o tr hstep hrest ih =>
    rw [List.flatMap_cons, ← List.append_assoc]
    refine ih (h.step hstep.2) (hmarked.step h.pids h.lt (fun p hp => ?_) (h.good.changes hstep.2))
    have haimed : s.Aimed (.kill (s.pid p)) := (show e = .kill (s.pid p) from hp) ▸ hstep.1
    exact stage_in_use.mpr (haimed p rfl)

/-- **`kill` kills who it names.**  In every run in which each `kill` finds no slot without a
process and `nextpid` does not overflow, the flag of a process or of a zombie is set if and only if
a `kill` has found its pid or the process itself has misbehaved, and a slot in which no process has
started has no flag. -/
theorem killed_iff (hrun : Run (Guarded Aimed (Step init)) (boot init) tr s)
    (hroom : allocs tr ≤ maxAllocs) (p : Fin nproc) :
    ((s.proc p).state ≠ .unused → ((s.proc p).killed = true ↔
      (s.proc p).pid ∈ tr.flatMap fun r => r.1.marks r.2)) ∧
    ((s.proc p).state = .unused ∨ (s.proc p).state = .embryo → (s.proc p).killed = false) := by
  have hboot : Marked [] (boot init).view := by
    refine ⟨fun q _ => ?_, fun q _ => ?_, fun k hk => absurd hk List.not_mem_nil⟩
    all_goals simp only [view, killed, boot]
    all_goals grind
  obtain ⟨-, hmarked⟩ := marked_run hrun (counted_boot init hroom) hboot
  refine ⟨fun hunused => hmarked.flag p fun hfree => hunused ?_, fun hp => hmarked.fresh p ?_⟩
  · exact State.stage_eq_free.mp hfree
  · exact hp.imp State.stage_eq_free.mpr State.stage_eq_embryo.mpr

instance (s : Sys nproc) (e : Event nproc) : Decidable (s.Aimed e) := by
  cases e
  all_goals unfold Aimed; infer_instance

/-- The second process is killed by the first. -/
theorem killed_iff_child :
    ∃ (tr : List (Event 2 × Out)) (s : Sys 2),
      Run (Guarded Aimed (Step 0)) (boot 0) tr s ∧
      ((s.proc 0).killed, (s.proc 1).killed, allocs tr) = (false, true, 1) ∧
      ∀ p, ((s.proc p).state ≠ .unused → ((s.proc p).killed = true ↔
          (s.proc p).pid ∈ tr.flatMap fun r => r.1.marks r.2)) ∧
        ((s.proc p).state = .unused ∨ (s.proc p).state = .embryo → (s.proc p).killed = false) := by
  obtain ⟨tr, s, hrun, hobs⟩ := Run.exists_of_play_guarded (f := step (0 : Fin 2))
    (c := Aimed) (s := boot 0)
    (l := [.schedule 0, .allocproc 0, .setParent 0, .forkDone 0, .kill 2])
    (fun r => ((r.1.proc 0).killed, (r.1.proc 1).killed, allocs r.2)) (v := (false, true, 1))
    (by decide)
  have hroom : allocs tr = 1 := congrArg (fun x => x.2.2) hobs
  exact ⟨tr, s, hrun, hobs, killed_iff hrun (by rw [hroom]; decide)⟩

/-- **A process that is born killed.**  `kill(0)` finds an unused slot, whose flag `allocproc`
does not clear: the next process in it has pid 2, and is killed, though no `kill` has named it. -/
theorem exists_born_killed :
    ∃ (tr : List (Event 2 × Out)) (s : Sys 2),
      Run (Step 0) (boot 0) tr s ∧ (s.proc 1).state = .runnable ∧ (s.proc 1).pid = 2 ∧
        (s.proc 1).killed = true ∧ 2 ∉ tr.flatMap fun r => r.1.marks r.2 := by
  obtain ⟨tr, s, hrun, hobs⟩ := Run.exists_of_play (f := step (0 : Fin 2)) (s := boot 0)
    (l := [.schedule 0, .kill 0, .allocproc 0, .setParent 0, .forkDone 0])
    (fun r => ((r.1.proc 1).state, (r.1.proc 1).pid, (r.1.proc 1).killed,
      r.2.flatMap fun r => r.1.marks r.2))
    (v := (.runnable, 2, true, [0])) (by decide)
  obtain ⟨hstate, hpid, hkilled, hmarks⟩ : (s.proc 1).state = .runnable ∧ (s.proc 1).pid = 2 ∧
      (s.proc 1).killed = true ∧ (tr.flatMap fun r => r.1.marks r.2) = [0] := by
    simpa only [Prod.mk.injEq] using hobs
  refine ⟨tr, s, hrun, hstate, hpid, hkilled, ?_⟩
  rw [hmarks]
  decide

end Sys

end Processes
end Xv6
end SystemsProjects
