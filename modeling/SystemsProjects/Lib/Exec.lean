import Mathlib

/-!
# Runs of a system, and what a run preserves

A system is given in one of two ways.  A deterministic one is a function
`f : σ → ι → Except ε (σ × ο)`: a state and an input give a next state and an
output, or an error that says why there is no next state.  A system with an
environment (a scheduler, an operating system that answers requests) is a
relation `step : σ → ι → ο → σ → Prop`.

For the first, `exec` folds the function over a list of inputs, and
`exec_refines` turns a step-wise simulation into a simulation of whole runs.
For the second, `Run` records the inputs and outputs of a finite run, and
`Run.invariant` carries a predicate along it.  `Guarded cond step` is the same
system restricted to the steps that meet `cond`, so that a run of it is a run
*whose steps all meet the condition*.
-/

namespace SystemsProjects
namespace Lib

universe u v

variable {ε σ τ ι ο : Type*} {α β : Type u}

/-! ## The error monad -/

@[simp] theorem ok_bind (a : α) (f : α → Except ε β) : (Except.ok a >>= f) = f a := rfl

@[simp] theorem error_bind (e : ε) (f : α → Except ε β) :
    (Except.error e >>= f) = Except.error e := rfl

@[simp] theorem pure_eq_ok (a : α) : (pure a : Except ε α) = Except.ok a := rfl

/-- A sequence that succeeds splits into two computations that succeed. -/
theorem bind_eq_ok {x : Except ε α} {f : α → Except ε β} {b : β} :
    (x >>= f) = Except.ok b ↔ ∃ a, x = Except.ok a ∧ f a = Except.ok b := by
  cases x with
  | error e => simp
  | ok a => simp

/-! ## Deterministic systems -/

/-- Run a step function on a list of inputs, collecting the outputs. -/
def exec (f : σ → ι → Except ε (σ × ο)) : σ → List ι → Except ε (σ × List ο)
  | s, [] => pure (s, [])
  | s, i :: is => do
      let (t, o) ← f s i
      let (u, os) ← exec f t is
      pure (u, o :: os)

@[simp] theorem exec_nil (f : σ → ι → Except ε (σ × ο)) (s : σ) :
    exec f s [] = .ok (s, []) := rfl

theorem exec_cons_ok {f : σ → ι → Except ε (σ × ο)} {s u : σ} {i : ι} {is : List ι}
    {os : List ο} :
    exec f s (i :: is) = .ok (u, os) ↔
      ∃ t o os', f s i = .ok (t, o) ∧ exec f t is = .ok (u, os') ∧ os = o :: os' := by
  simp only [exec, bind_eq_ok, pure_eq_ok, Except.ok.injEq, Prod.mk.injEq, Prod.exists]
  constructor
  · rintro ⟨t, o, hf, u', os', he, rfl, rfl⟩
    exact ⟨t, o, os', hf, he, rfl⟩
  · rintro ⟨t, o, os', hf, he, rfl⟩
    exact ⟨t, o, hf, u, os', he, rfl, rfl⟩

/-- **Step-wise refinement lifts to runs.**  If related states stay related under
one step and the two outputs of a step are related by `S`, then every run of the
abstract system is matched by a run of the concrete one, output by output. -/
theorem exec_refines {ε' ο' : Type*} {f : σ → ι → Except ε (σ × ο)}
    {g : τ → ι → Except ε' (τ × ο')} {R : σ → τ → Prop} {S : ι → ο → ο' → Prop}
    (hstep : ∀ s t i t' o', R s t → g t i = .ok (t', o') →
      ∃ s' o, f s i = .ok (s', o) ∧ R s' t' ∧ S i o o') :
    ∀ {is : List ι} {s : σ} {t t' : τ} {os' : List ο'}, R s t →
      exec g t is = .ok (t', os') →
      ∃ s' os, exec f s is = .ok (s', os) ∧ R s' t' ∧
        List.Forall₂ (fun p o' => S p.1 p.2 o') (is.zip os) os' := by
  intro is
  induction is with
  | nil =>
    intro s t t' os' hR h
    rw [exec_nil, Except.ok.injEq, Prod.mk.injEq] at h
    obtain ⟨rfl, rfl⟩ := h
    exact ⟨s, [], rfl, hR, List.Forall₂.nil⟩
  | cons i is ih =>
    intro s t t' os' hR h
    obtain ⟨u, o', os₁, hg, hrest, rfl⟩ := exec_cons_ok.mp h
    obtain ⟨s₁, o, hf, hR₁, hS⟩ := hstep s t i u o' hR hg
    obtain ⟨s', os, hexec, hR', hall⟩ := ih hR₁ hrest
    exact ⟨s', o :: os, exec_cons_ok.mpr ⟨s₁, o, os, hf, hexec, rfl⟩, hR',
      List.Forall₂.cons hS hall⟩

/-- A function that commutes with the steps commutes with the runs. -/
theorem exec_map {ε' : Type*} {f : σ → ι → Except ε (σ × ο)} {g : τ → ι → Except ε' (τ × ο)}
    {φ : τ → σ} (hstep : ∀ t i t' o, g t i = .ok (t', o) → f (φ t) i = .ok (φ t', o)) :
    ∀ {is : List ι} {t t' : τ} {os : List ο},
      exec g t is = .ok (t', os) → exec f (φ t) is = .ok (φ t', os) := by
  intro is
  induction is with
  | nil =>
    intro t t' os h
    rw [exec_nil, Except.ok.injEq, Prod.mk.injEq] at h
    obtain ⟨rfl, rfl⟩ := h
    exact exec_nil f (φ t)
  | cons i is ih =>
    intro t t' os h
    obtain ⟨u, o, os', hg, hrest, rfl⟩ := exec_cons_ok.mp h
    exact exec_cons_ok.mpr ⟨φ u, o, os', hstep t i u o hg, ih hrest, rfl⟩

/-- A map of a list of computations that all succeed. -/
theorem mapM_eq_ok {f : α → Except ε β} {g : α → β} :
    ∀ {l : List α}, (∀ a ∈ l, f a = .ok (g a)) → l.mapM f = .ok (l.map g)
  | [], _ => rfl
  | a :: l, h => by
    rw [List.mapM_cons, h a List.mem_cons_self, ok_bind,
      mapM_eq_ok fun b hb => h b (List.mem_cons_of_mem _ hb)]
    rfl

/-- A map that succeeds has a result for every element. -/
theorem length_of_mapM {f : α → Except ε β} :
    ∀ {l : List α} {l' : List β}, l.mapM f = .ok l' → l'.length = l.length
  | [], _, h => by
    rw [← Except.ok.inj h]
    rfl
  | a :: l, _, h => by
    rw [List.mapM_cons, bind_eq_ok] at h
    obtain ⟨b, -, h⟩ := h
    rw [bind_eq_ok] at h
    obtain ⟨bs, hbs, h⟩ := h
    rw [← Except.ok.inj h, List.length_cons, List.length_cons, length_of_mapM hbs]

/-- Outputs that match one by one have equal observations. -/
theorem zipWith_eq_map_of_forall₂ {ο' γ : Type*} {f : ι → ο → γ} {g : ο' → γ}
    {is : List ι} {os : List ο} {os' : List ο'}
    (h : List.Forall₂ (fun p o' => f p.1 p.2 = g o') (is.zip os) os') :
    List.zipWith f is os = os'.map g := by
  have hmap : List.Forall₂ (· = ·) ((is.zip os).map fun p => f p.1 p.2) (os'.map g) := by
    rw [List.forall₂_map_left_iff, List.forall₂_map_right_iff]
    exact h
  rw [List.forall₂_eq_eq_eq] at hmap
  rw [← hmap, List.zip, List.map_zipWith]

/-! ## Systems with an environment -/

/-- A finite run of a transition relation, with the input and the output of each
step. -/
inductive Run (step : σ → ι → ο → σ → Prop) : σ → List (ι × ο) → σ → Prop where
  | nil (s : σ) : Run step s [] s
  | cons {s t u : σ} {i : ι} {o : ο} {tr : List (ι × ο)} :
      step s i o t → Run step t tr u → Run step s ((i, o) :: tr) u

/-- The steps of a system whose start state and input meet a condition. -/
def Guarded (cond : σ → ι → Prop) (step : σ → ι → ο → σ → Prop) :
    σ → ι → ο → σ → Prop :=
  fun s i o t => cond s i ∧ step s i o t

/-- **An invariant carried along a run.** -/
theorem Run.invariant {step : σ → ι → ο → σ → Prop} {P : σ → Prop}
    (hP : ∀ s i o t, P s → step s i o t → P t) {s t : σ} {tr : List (ι × ο)}
    (h : Run step s tr t) (hs : P s) : P t := by
  induction h with
  | nil => exact hs
  | cons hstep _ ih => exact ih (hP _ _ _ _ hs hstep)

/-- **A run refined by a deterministic system.**  If related states stay related
under one step, with the same output, the deterministic system gives the outputs
of the whole run. -/
theorem Run.refines {step : σ → ι → ο → σ → Prop} {g : τ → ι → Except ε (τ × ο)}
    {R : σ → τ → Prop}
    (hstep : ∀ s i o s' t, R s t → step s i o s' → ∃ t', g t i = .ok (t', o) ∧ R s' t')
    {s s' : σ} {tr : List (ι × ο)} (h : Run step s tr s') :
    ∀ {t : τ}, R s t →
      ∃ t', exec g t (tr.map Prod.fst) = .ok (t', tr.map Prod.snd) ∧ R s' t' := by
  induction h with
  | nil s =>
    intro t hR
    exact ⟨t, rfl, hR⟩
  | cons hs _ ih =>
    intro t hR
    obtain ⟨t₁, hg, hR₁⟩ := hstep _ _ _ _ _ hR hs
    obtain ⟨t', hexec, hR'⟩ := ih hR₁
    exact ⟨t', exec_cons_ok.mpr ⟨t₁, _, _, hg, hexec, rfl⟩, hR'⟩

/-- A run of a restricted system is a run of the system. -/
theorem Run.mono {step step' : σ → ι → ο → σ → Prop}
    (hle : ∀ s i o t, step s i o t → step' s i o t) {s t : σ} {tr : List (ι × ο)}
    (h : Run step s tr t) : Run step' s tr t := by
  induction h with
  | nil s => exact Run.nil s
  | cons hstep _ ih => exact Run.cons (hle _ _ _ _ hstep) ih

theorem Run.append {step : σ → ι → ο → σ → Prop} {s t u : σ} {tr tr' : List (ι × ο)}
    (h : Run step s tr t) (h' : Run step t tr' u) : Run step s (tr ++ tr') u := by
  induction h with
  | nil => exact h'
  | cons hstep _ ih => exact Run.cons hstep (ih h')

/-- A schedule that a partial step function can follow is a run of it. -/
theorem Run.of_foldlM {f : σ → ι → Option σ} :
    ∀ {l : List ι} {s t : σ}, l.foldlM f s = some t →
      Run (fun s i (_ : Unit) t => f s i = some t) s (l.map fun i => (i, ())) t
  | [], s, t, h => by
    rw [List.foldlM_nil] at h
    rw [← Option.some.inj h]
    exact Run.nil s
  | i :: l, s, t, h => by
    rw [List.foldlM_cons] at h
    obtain ⟨u, hu, hrest⟩ := Option.bind_eq_some_iff.mp h
    exact Run.cons hu (Run.of_foldlM hrest)

/-- A schedule whose steps meet a condition that can be decided. -/
theorem Run.guarded_of_foldlM {f : σ → ι → Option σ} {cond : σ → ι → Prop}
    [∀ s i, Decidable (cond s i)] {is : List ι} {s t : σ}
    (h : is.foldlM (fun s i => if cond s i then f s i else none) s = some t) :
    Run (Guarded cond fun s i (_ : Unit) t => f s i = some t) s (is.map fun i => (i, ())) t := by
  refine (Run.of_foldlM h).mono fun s i _ t hstep => ?_
  by_cases hcond : cond s i
  · rw [if_pos hcond] at hstep
    exact ⟨hcond, hstep⟩
  · rw [if_neg hcond] at hstep
    cases hstep

/-- The run of a partial step function along a list of inputs, with its outputs. -/
def play (f : σ → ι → Option (σ × ο)) : σ → List ι → Option (σ × List (ι × ο))
  | s, [] => some (s, [])
  | s, i :: is =>
      (f s i).bind fun r => (play f r.1 is).map fun r' => (r'.1, (i, r.2) :: r'.2)

theorem Run.of_play {f : σ → ι → Option (σ × ο)} :
    ∀ {is : List ι} {s u : σ} {tr : List (ι × ο)}, play f s is = some (u, tr) →
      Run (fun s i o t => f s i = some (t, o)) s tr u
  | [], s, u, tr, h => by
    obtain ⟨rfl, rfl⟩ := Prod.mk.inj (Option.some.inj h)
    exact Run.nil s
  | i :: is, s, u, tr, h => by
    obtain ⟨⟨t, o⟩, hf, h⟩ := Option.bind_eq_some_iff.mp h
    obtain ⟨⟨u', tr'⟩, hrest, h⟩ := Option.map_eq_some_iff.mp h
    obtain ⟨rfl, rfl⟩ := Prod.mk.inj h
    exact Run.cons hf (Run.of_play hrest)

/-- A run that is known by what is observed at its end. -/
theorem Run.exists_of_play {γ : Type*} {f : σ → ι → Option (σ × ο)} {l : List ι} {s : σ}
    (obs : σ × List (ι × ο) → γ) {v : γ} (h : (play f s l).map obs = some v) :
    ∃ tr u, Run (fun s i o t => f s i = some (t, o)) s tr u ∧ obs (u, tr) = v := by
  obtain ⟨⟨u, tr⟩, hplay, hobs⟩ := Option.map_eq_some_iff.mp h
  exact ⟨tr, u, Run.of_play hplay, hobs⟩

/-- The same when every step meets a condition that can be decided. -/
theorem Run.exists_of_play_guarded {γ : Type*} {f : σ → ι → Option (σ × ο)}
    {c : σ → ι → Prop} [∀ s i, Decidable (c s i)] {l : List ι} {s : σ}
    (obs : σ × List (ι × ο) → γ) {v : γ}
    (h : (play (fun s i => if c s i then f s i else none) s l).map obs = some v) :
    ∃ tr u, Run (Guarded c fun s i o t => f s i = some (t, o)) s tr u ∧ obs (u, tr) = v := by
  obtain ⟨tr, u, hrun, hobs⟩ := Run.exists_of_play obs h
  refine ⟨tr, u, hrun.mono fun s i o t hstep => ?_, hobs⟩
  by_cases hc : c s i
  · rw [if_pos hc] at hstep
    exact ⟨hc, hstep⟩
  · rw [if_neg hc] at hstep
    cases hstep

end Lib
end SystemsProjects
