import SystemsProjects.Lib.Prog

/-!
# Teams of threads over one memory

Each thread of a team has a program, and a step of the team is one access of one of them: every
order of the accesses is a run.  `Ends P` says of a team that each of its runs comes to an end,
without a fault, in a memory that satisfies `P`.

Two threads with the same exchanging program are a bad idea.  If the program has anything to
exchange, there is a run in which an exchange takes place between the first load and the first
store of the other thread, and a value is lost (`Exchanging.lost_update`).  So such a team is
right if and only if there is nothing to do for it (`Exchanging.ends_iff`).
-/

namespace SystemsProjects
namespace Lib

open Relation

variable {ε ι ν α β τ : Type} [DecidableEq ι] [DecidableEq τ]

/-! ## Steps -/

/-- The next access of a program. -/
def Prog.step : Prog ε ι ν α → (ι → ν) → Option (Prog ε ι ν α × (ι → ν))
  | .ret _, _ => none
  | .fail _, _ => none
  | .load x k, m => some (k (m x), m)
  | .store x v p, m => some (p, Function.update m x v)

/-- The programs of the threads and the memory. -/
structure Team (ε ι ν α τ : Type) where
  progs : τ → Prog ε ι ν α
  mem : ι → ν

/-- One access of one thread. -/
def Team.Step (c c' : Team ε ι ν α τ) : Prop :=
  ∃ t p m, (c.progs t).step c.mem = some (p, m) ∧ c' = ⟨Function.update c.progs t p, m⟩

/-- Every thread has its result. -/
def Team.Finished (c : Team ε ι ν α τ) : Prop := ∀ t, ∃ a, c.progs t = .ret a

/-- **Every run ends in `P`**: no thread has come to a fault, and after each possible step every
run ends in `P`. -/
inductive Ends (P : (ι → ν) → Prop) : Team ε ι ν α τ → Prop where
  | done {c : Team ε ι ν α τ} (hfinished : c.Finished) (h : P c.mem) : Ends P c
  | step {c : Team ε ι ν α τ} (hsome : ∃ c', c.Step c') (hfail : ∀ t e, c.progs t ≠ .fail e)
      (h : ∀ c', c.Step c' → Ends P c') : Ends P c

variable {P : (ι → ν) → Prop} {s : List ι} {Q : α → Prop} {R : β → Prop}

theorem Team.Finished.not_step {c c' : Team ε ι ν α τ} (h : c.Finished) : ¬ c.Step c' := by
  rintro ⟨t, p, m, hstep, -⟩
  obtain ⟨a, ha⟩ := h t
  rw [ha] at hstep
  cases hstep

theorem Ends.mono {c : Team ε ι ν α τ} (h : Ends P c) {P' : (ι → ν) → Prop}
    (hP : ∀ m, P m → P' m) : Ends P' c := by
  induction h with
  | done hfinished h => exact Ends.done hfinished (hP _ h)
  | step hsome hfail _ ih => exact Ends.step hsome hfail ih

/-- What all runs end in, a run ends in. -/
theorem Ends.of_run {c c' : Team ε ι ν α τ} (h : Ends P c) (hrun : ReflTransGen Team.Step c c')
    (hfinished : c'.Finished) : P c'.mem := by
  induction h with
  | done hdone hP =>
    rcases hrun.cases_head with rfl | ⟨d, hstep, -⟩
    · exact hP
    · exact absurd hstep hdone.not_step
  | step hsome _ _ ih =>
    rcases hrun.cases_head with rfl | ⟨d, hstep, hrest⟩
    · obtain ⟨d, hstep⟩ := hsome
      exact absurd hstep hfinished.not_step
    · exact ih d hstep hrest

omit [DecidableEq ι] in
/-- What holds of the programs of a team and of a further program holds after a thread has come
to that one. -/
theorem forall_update {P : τ → Prog ε ι ν α → Prop} {t : τ} {ps : τ → Prog ε ι ν α}
    {p : Prog ε ι ν α} (hp : P t p) (hps : ∀ u, u ≠ t → P u (ps u)) (u : τ) :
    P u (Function.update ps t p u) := by
  by_cases hut : u = t
  · subst hut
    rw [Function.update_self]
    exact hp
  · rw [Function.update_of_ne hut]
    exact hps u hut

omit [DecidableEq τ] in
/-- A sum over the threads, when one of them has less to do. -/
theorem sum_lt_sum_of_one [Fintype τ] {n n' : τ → ℕ} (t : τ) (ht : n' t < n t)
    (hne : ∀ u, u ≠ t → n' u = n u) : ∑ u, n' u < ∑ u, n u := by
  refine Finset.sum_lt_sum (fun u _ => ?_) ⟨t, Finset.mem_univ t, ht⟩
  rcases eq_or_ne u t with rfl | hu
  · exact ht.le
  · exact (hne u hu).le

/-- A team in which nobody has a step, and nobody a fault, is finished. -/
theorem Team.finished_of_stuck {c : Team ε ι ν α τ} (hfail : ∀ t e, c.progs t ≠ .fail e)
    (hstuck : ¬ ∃ c', c.Step c') : c.Finished := by
  intro t
  cases hp : c.progs t with
  | ret a => exact ⟨a, rfl⟩
  | fail e => exact absurd hp (hfail t e)
  | load x k => exact absurd ⟨_, t, k (c.mem x), c.mem, by rw [hp]; rfl, rfl⟩ hstuck
  | store x v p =>
    exact absurd ⟨_, t, p, Function.update c.mem x v, by rw [hp]; rfl, rfl⟩ hstuck

/-- **Descent.**  A team that has no fault, and makes a number smaller with every step, comes to
an end. -/
theorem Ends.of_descent {I : ℕ → Team ε ι ν α τ → Prop}
    (hfail : ∀ n c, I n c → ∀ t e, c.progs t ≠ .fail e)
    (hend : ∀ n c, I n c → c.Finished → P c.mem)
    (hstep : ∀ n c c', I n c → c.Step c' → ∃ n' < n, I n' c') {n : ℕ} :
    ∀ {c : Team ε ι ν α τ}, I n c → Ends P c := by
  induction n using Nat.strong_induction_on with
  | _ n ih =>
    intro c hI
    by_cases hsome : ∃ c', c.Step c'
    · refine Ends.step hsome (hfail n c hI) fun c' hc' => ?_
      obtain ⟨n', hlt, hI'⟩ := hstep n c c' hI hc'
      exact ih n' hlt hI'
    · have hfinished := Team.finished_of_stuck (hfail n c hI) hsome
      exact Ends.done hfinished (hend n c hI hfinished)

/-! ## One thread at a time -/

/-- Some accesses of a program, with nobody else at work. -/
def Solo : Prog ε ι ν α × (ι → ν) → Prog ε ι ν α × (ι → ν) → Prop :=
  ReflTransGen fun a b => a.1.step a.2 = some b

theorem Solo.load (x : ι) (k : ν → Prog ε ι ν α) (m : ι → ν) :
    Solo (.load x k, m) (k (m x), m) := ReflTransGen.single rfl

theorem Solo.store (x : ι) (v : ν) (p : Prog ε ι ν α) (m : ι → ν) :
    Solo (.store x v p, m) (p, Function.update m x v) := ReflTransGen.single rfl

/-- A program alone comes to its result. -/
theorem Solo.of_run (p : Prog ε ι ν α) : ∀ {m m' : ι → ν} {a : α}, p.run m = .ok (a, m') →
    Solo (p, m) (.ret a, m') := by
  induction p with
  | ret a =>
    intro m m' a' h
    cases h
    exact ReflTransGen.refl
  | fail e => exact fun h => by cases h
  | load x k ih => exact fun h => (Solo.load x k _).trans (ih _ h)
  | store x v p ih => exact fun h => (Solo.store x v p _).trans (ih h)

/-- A whole exchange. -/
theorem Solo.exchange (x y : ι) (p : Prog ε ι ν α) (m : ι → ν) :
    Solo (.load x fun a => .load y fun b => .store x b (.store y a p), m)
      (p, exchanged m x y) := by
  have hload : Solo (.load x fun a => .load y fun b => .store x b (.store y a p), m)
      (.store x (m y) (.store y (m x) p), m) :=
    (Solo.load x _ m).trans (Solo.load y (fun b => .store x b (.store y (m x) p)) m)
  have hstore : Solo (.store x (m y) (.store y (m x) p), m) (p, exchanged m x y) :=
    (Solo.store x (m y) _ m).trans (Solo.store y (m x) p _)
  exact hload.trans hstore

/-- A thread of a team at work alone. -/
theorem Solo.team (ps : τ → Prog ε ι ν α) (t : τ) {m : ι → ν}
    {r : Prog ε ι ν α × (ι → ν)} (h : Solo (ps t, m) r) :
    ReflTransGen Team.Step ⟨ps, m⟩ ⟨Function.update ps t r.1, r.2⟩ := by
  induction h with
  | refl => rw [Function.update_eq_self]
  | @tail a b _ hstep ih =>
    refine ih.tail ⟨t, b.1, b.2, ?_, ?_⟩
    · show (Function.update ps t a.1 t).step a.2 = some b
      rw [Function.update_self]
      exact hstep
    · rw [Function.update_idem]

/-- **All threads one after the other** come to their results, and permute the cells. -/
theorem Exchanging.finish [Fintype τ] (hs : s.Nodup) {ps : τ → Prog ε ι ν α}
    (h : ∀ t, Exchanging s Q (ps t)) (m : ι → ν) :
    ∃ c' : Team ε ι ν α τ, ReflTransGen Team.Step ⟨ps, m⟩ c' ∧ c'.Finished ∧
      (s.map c'.mem).Perm (s.map m) := by
  have hlist : ∀ l : List τ, ∃ c' : Team ε ι ν α τ, ReflTransGen Team.Step ⟨ps, m⟩ c' ∧
      (∀ t ∈ l, ∃ a, c'.progs t = .ret a) ∧ (∀ t, Exchanging s Q (c'.progs t)) ∧
      (s.map c'.mem).Perm (s.map m) := by
    intro l
    induction l with
    | nil => exact ⟨_, ReflTransGen.refl, fun t ht => absurd ht List.not_mem_nil, h,
        List.Perm.refl _⟩
    | cons t l ih =>
      obtain ⟨c, hsteps, hdone, hex, hperm⟩ := ih
      obtain ⟨a, m', hrun, hQ, hperm', -⟩ := (hex t).run hs c.mem
      have hother : ∀ u, u ≠ t → Function.update c.progs t (.ret a) u = c.progs u :=
        fun u hu => Function.update_of_ne hu _ _
      refine ⟨⟨Function.update c.progs t (.ret a), m'⟩,
        hsteps.trans (Solo.team _ t (Solo.of_run _ hrun)), fun u hu => ?_, fun u => ?_,
        hperm'.trans hperm⟩
      · by_cases hut : u = t
        · exact ⟨a, by rw [hut]; exact Function.update_self t _ _⟩
        · obtain ⟨b, hb⟩ := hdone u ((List.mem_cons.mp hu).resolve_left hut)
          exact ⟨b, (hother u hut).trans hb⟩
      · by_cases hut : u = t
        · rw [hut]
          show Exchanging s Q (Function.update c.progs t (.ret a) t)
          rw [Function.update_self]
          exact Exchanging.ret hQ
        · show Exchanging s Q (Function.update c.progs t (.ret a) u)
          rw [hother u hut]
          exact hex u
  obtain ⟨c', hsteps, hdone, -, hperm⟩ := hlist Finset.univ.toList
  exact ⟨c', hsteps, fun t => hdone t (Finset.mem_toList.mpr (Finset.mem_univ t)), hperm⟩

/-! ## Nothing to do -/

/-- Every store of the program writes what is there already, and its result is in `Q`. -/
def Quiet (m : ι → ν) (Q : α → Prop) : Prog ε ι ν α → Prop
  | .ret a => Q a
  | .fail _ => False
  | .load x k => Quiet m Q (k (m x))
  | .store x v p => m x = v ∧ Quiet m Q p

omit [DecidableEq ι] in
theorem Quiet.bind {m : ι → ν} (p : Prog ε ι ν α) {f : α → Prog ε ι ν β} (h : Quiet m Q p)
    (hf : ∀ a, Q a → Quiet m R (f a)) : Quiet m R (p >>= f) := by
  induction p with
  | ret a => exact hf a h
  | fail e => exact h.elim
  | load x k ih => exact ih _ h
  | store x v p ih => exact ⟨h.1, ih h.2⟩

/-- The number of accesses, if the memory stays as it is. -/
def Prog.accesses (m : ι → ν) : Prog ε ι ν α → ℕ
  | .ret _ => 0
  | .fail _ => 0
  | .load x k => (k (m x)).accesses m + 1
  | .store _ _ p => p.accesses m + 1

/-- A quiet program goes on quietly, and has fewer accesses to make. -/
theorem Quiet.step {m m' : ι → ν} {p p' : Prog ε ι ν α} (h : Quiet m Q p)
    (hstep : p.step m = some (p', m')) :
    m' = m ∧ Quiet m Q p' ∧ p'.accesses m < p.accesses m := by
  cases p with
  | ret a => cases hstep
  | fail e => cases hstep
  | load x k =>
    cases hstep
    exact ⟨rfl, h, Nat.lt_succ_self _⟩
  | store x v p =>
    cases hstep
    obtain ⟨rfl, h⟩ := h
    exact ⟨Function.update_eq_self x m, h, Nat.lt_succ_self _⟩

/-- A quiet program that has no step has its result. -/
theorem Quiet.result {m : ι → ν} {p : Prog ε ι ν α} (h : Quiet m Q p) (hstep : p.step m = none) :
    ∃ a, p = .ret a := by
  cases p with
  | ret a => exact ⟨a, rfl⟩
  | fail e => exact h.elim
  | load x k => cases hstep
  | store x v p => cases hstep

/-- **A team of quiet programs** ends, and the memory is what it was. -/
theorem Ends.of_quiet [Fintype τ] {m : ι → ν} (hP : P m) (n : ℕ) :
    ∀ {ps : τ → Prog ε ι ν α}, (∀ t, Quiet m Q (ps t)) → ∑ t, (ps t).accesses m = n →
      Ends P (⟨ps, m⟩ : Team ε ι ν α τ) := by
  intro ps hquiet hn
  refine Ends.of_descent (I := fun n c => c.mem = m ∧ (∀ t, Quiet m Q (c.progs t)) ∧
    ∑ t, (c.progs t).accesses m = n) ?_ ?_ ?_ ⟨rfl, hquiet, hn⟩
  · rintro n ⟨ps, _⟩ ⟨rfl, hquiet, -⟩ t e he
    have hfail := hquiet t
    rw [he] at hfail
    exact hfail
  · rintro n ⟨ps, _⟩ ⟨rfl, -, -⟩ -
    exact hP
  · rintro n ⟨ps, _⟩ c' ⟨rfl, hquiet, rfl⟩ ⟨t, p, m', hstep, rfl⟩
    obtain ⟨rfl, hp, hlt⟩ := (hquiet t).step hstep
    refine ⟨_, sum_lt_sum_of_one t ?_ fun u hu => ?_, rfl,
      forall_update hp fun u _ => hquiet u, rfl⟩
    · exact (congrArg (Prog.accesses m') (Function.update_self t p ps)).trans_lt hlt
    · exact congrArg (Prog.accesses m') (Function.update_of_ne hu p ps)

/-! ## Something to do -/

/-- A value written over another one is not there in its place. -/
theorem not_perm_map_update {m : ι → ν} {y : ι} {a : ν} (hs : s.Nodup) (hy : y ∈ s)
    (h : a ≠ m y) : ¬ (s.map (Function.update m y a)).Perm (s.map m) := by
  classical
  intro hperm
  obtain ⟨l₁, l₂, rfl⟩ := List.append_of_mem hy
  have hother : ∀ l : List ι, y ∉ l → l.map (Function.update m y a) = l.map m := fun l hl =>
    List.map_congr_left fun z hz => Function.update_of_ne (ne_of_mem_of_not_mem hz hl) _ _
  have hnodup := List.nodup_middle.mp hs
  rw [List.nodup_cons, List.mem_append, not_or] at hnodup
  have hcount := hperm.count_eq (m y)
  rw [List.map_append, List.map_append, List.map_cons, List.map_cons, hother l₁ hnodup.1.1,
    hother l₂ hnodup.1.2, Function.update_self, List.count_append, List.count_append,
    List.count_cons_of_ne h, List.count_cons_self] at hcount
  omega

/-- The second half of an exchange, with an old value of the first cell. -/
theorem stale {m : ι → ν} {x y : ι} (h : m x ≠ m y) (p : Prog ε ι ν α) :
    Solo (.load y fun b => .store x b (.store y (m x) p), exchanged m x y)
      (p, Function.update m y (m x)) := by
  have hxy : x ≠ y := fun heq => h (by rw [heq])
  have hy : exchanged m x y y = m x := Function.update_self _ _ _
  have hload := Solo.load y (fun b => Prog.store x b (.store y (m x) p)) (exchanged m x y)
  have hstore := (Solo.store x (m x) (.store y (m x) p) (exchanged m x y)).trans
    (Solo.store y (m x) p _)
  have hmem : Function.update (Function.update (exchanged m x y) x (m x)) y (m x) =
      Function.update m y (m x) := by
    funext z
    by_cases hzy : z = y
    · rw [hzy, Function.update_self, Function.update_self]
    · rw [Function.update_of_ne hzy, Function.update_of_ne hzy]
      by_cases hzx : z = x
      · rw [hzx, Function.update_self]
      · rw [Function.update_of_ne hzx, exchanged, Function.update_of_ne hzy,
          Function.update_of_ne hzx]
  rw [hmem] at hstore
  rw [hy] at hload
  exact hload.trans hstore

omit [DecidableEq ι] in
/-- Two threads of a team at a program. -/
theorem update_two {t u : τ} (htu : t ≠ u) (ps : τ → Prog ε ι ν α) (p : Prog ε ι ν α) :
    Function.update (Function.update ps t p) u p t = p ∧
      Function.update (Function.update ps t p) u p u = p :=
  ⟨by rw [Function.update_of_ne htu, Function.update_self], by rw [Function.update_self]⟩

omit [DecidableEq ι] in
/-- The same for two threads that come to one program. -/
theorem forall_update_two {P : Prog ε ι ν α → Prop} (t u : τ) {ps : τ → Prog ε ι ν α}
    {p : Prog ε ι ν α} (hp : P p) (hps : ∀ w, w ≠ t → w ≠ u → P (ps w)) (w : τ) :
    P (Function.update (Function.update ps t p) u p w) :=
  forall_update (P := fun _ => P) hp (fun w hwu =>
    forall_update (P := fun w q => w ≠ u → P q) (fun _ => hp) (fun w hwt => hps w hwt) w hwu) w

/-- Two threads at one program come to another one that each of them can come to alone, with the
memory as it is. -/
theorem Solo.team_two {t u : τ} (htu : t ≠ u) {ps : τ → Prog ε ι ν α} {p q : Prog ε ι ν α}
    {m : ι → ν} (ht : ps t = p) (hu : ps u = p) (h : Solo (p, m) (q, m)) :
    ReflTransGen Team.Step ⟨ps, m⟩
      ⟨Function.update (Function.update ps t q) u q, m⟩ := by
  have hsecond : Solo (Function.update ps t q u, m) (q, m) := by
    rw [Function.update_of_ne htu.symm, hu]
    exact h
  exact (Solo.team ps t (ht ▸ h)).trans (Solo.team (Function.update ps t q) u hsecond)

/-- **A lost update.**  Two threads have the same exchanging program, and it has something to
exchange: one of them loads the first cell of that exchange, the other one makes it, and then the
first one goes on with the old value. -/
theorem Exchanging.lost_update (hs : s.Nodup) {p : Prog ε ι ν α} (h : Exchanging s Q p)
    {t u : τ} (htu : t ≠ u) {m : ι → ν} (hquiet : ¬ Quiet m Q p) :
    ∀ ps : τ → Prog ε ι ν α, ps t = p → ps u = p → (∀ w, Exchanging s Q (ps w)) →
      ∃ c' : Team ε ι ν α τ, ReflTransGen Team.Step ⟨ps, m⟩ c' ∧
        (∀ w, Exchanging s Q (c'.progs w)) ∧ ¬ (s.map c'.mem).Perm (s.map m) := by
  induction h with
  | ret h => exact fun _ _ _ _ => absurd h hquiet
  | @load x k hk ih =>
    intro ps ht hu hps
    obtain ⟨ht', hu'⟩ := update_two htu ps (k (m x))
    obtain ⟨c', hsteps, hex, hlost⟩ := ih (m x) hquiet _ ht' hu'
      (forall_update_two t u (hk (m x)) fun w _ _ => hps w)
    exact ⟨c', (Solo.team_two htu ht hu (Solo.load x k m)).trans hsteps, hex, hlost⟩
  | @exchange x y p hx hy hp ih =>
    intro ps ht hu hps
    by_cases heq : m x = m y
    · -- nothing happens here
      have hrest : ¬ Quiet m Q p := fun h => hquiet ⟨heq, heq.symm, h⟩
      have hwhole := Solo.exchange x y p m
      rw [exchanged_of_eq heq] at hwhole
      obtain ⟨ht', hu'⟩ := update_two htu ps p
      obtain ⟨c', hsteps, hex, hlost⟩ := ih hrest _ ht' hu'
        (forall_update_two t u hp fun w _ _ => hps w)
      exact ⟨c', (Solo.team_two htu ht hu hwhole).trans hsteps, hex, hlost⟩
    · let rest : Prog ε ι ν α := .load y fun b => .store x b (.store y (m x) p)
      have hload := Solo.team ps u (m := m) (r := (rest, m)) (hu ▸ Solo.load x _ m)
      have hexchange := Solo.team (Function.update ps u rest) t (m := m)
        (r := (p, exchanged m x y))
        (by rw [Function.update_of_ne htu, ht]; exact Solo.exchange x y p m)
      have hstale := Solo.team (Function.update (Function.update ps u rest) t p) u
        (m := exchanged m x y) (r := (p, Function.update m y (m x)))
        (by rw [Function.update_of_ne htu.symm, Function.update_self]; exact stale heq p)
      refine ⟨_, (hload.trans hexchange).trans hstale,
        forall_update_two t u hp fun w _ hwu => ?_, not_perm_map_update hs hy heq⟩
      rw [Function.update_of_ne hwu]
      exact hps w

/-- **A team with one exchanging program** is right, for a `P` that asks for a permutation, if
and only if the program has nothing to do and the memory satisfies `P` already. -/
theorem Exchanging.ends_iff [Fintype τ] (hs : s.Nodup) {p : Prog ε ι ν α}
    (h : Exchanging s Q p) {t u : τ} (htu : t ≠ u) {m : ι → ν}
    (hP : ∀ m', P m' → (s.map m').Perm (s.map m)) :
    Ends P (⟨fun _ => p, m⟩ : Team ε ι ν α τ) ↔ Quiet m Q p ∧ P m := by
  constructor
  · intro hends
    have hquiet : Quiet m Q p := by
      by_contra hquiet
      obtain ⟨⟨ps, m'⟩, hsteps, hex, hlost⟩ :=
        h.lost_update hs htu hquiet (fun _ => p) rfl rfl fun _ => h
      obtain ⟨c', hsteps', hfinished, hperm⟩ := Exchanging.finish hs hex m'
      exact hlost (hperm.symm.trans (hP _ (hends.of_run (hsteps.trans hsteps') hfinished)))
    refine ⟨hquiet, ?_⟩
    obtain ⟨c', hsteps, hfinished, -⟩ := Exchanging.finish hs (fun _ : τ => h) m
    have hmem : c'.mem = m := (Ends.of_quiet (P := fun m' => m' = m) rfl _
      (fun _ => hquiet) rfl).of_run hsteps hfinished
    exact hmem ▸ hends.of_run hsteps hfinished
  · rintro ⟨hquiet, hm⟩
    exact Ends.of_quiet hm _ (fun _ => hquiet) rfl

end Lib
end SystemsProjects
