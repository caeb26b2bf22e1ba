import SystemsProjects.Lib.Prog

/-!
# Programs that a crash may cut short

A block store with a write-back cache has two contents.  Its users see the `view`; only the
`disk` survives a crash.  The blocks that may differ are *pinned*: a cache entry is given up
only when it is not pinned, so that giving it up shows nobody anything new, and the content of
the cache can be kept as one function.

A program over such a store makes one access at a time, and the machine may stop in front of
any of them.  `Keeps C Q p m` says that `p`, started at `m`, ends with a result in `Q`, and that
`C` holds at all times.  `Switches C₁ C₂ Q p m` says that `p` ends in `Q` and that there is one
store in its course up to which `C₁` holds and from which on `C₂` does: the program takes effect
at that store.  Both are kept by the accesses (`Keeps.access`,
`Switches.access`), and both compose over `bind`.
-/

namespace SystemsProjects
namespace Lib

variable {ε ι ν α β : Type}

/-! ## A store with a cache -/

/-- What is seen, what survives, and where the two may differ. -/
structure Cached (ι ν : Type) where
  view : ι → ν
  disk : ι → ν
  pinned : Finset ι
  coherent : ∀ x, x ∉ pinned → view x = disk x

namespace Cached

/-- The store behind a start of the machine: nothing is cached. -/
def ofDisk (d : ι → ν) : Cached ι ν := ⟨d, d, ∅, fun _ _ => rfl⟩

@[simp] theorem ofDisk_disk (d : ι → ν) : (ofDisk d).disk = d := rfl

@[simp] theorem ofDisk_view (d : ι → ν) : (ofDisk d).view = d := rfl

@[simp] theorem ofDisk_pinned (d : ι → ν) : (ofDisk d).pinned = ∅ := rfl

variable [DecidableEq ι]

/-- A block written through to the disk; it is no longer pinned. -/
def write (m : Cached ι ν) (x : ι) (v : ν) : Cached ι ν where
  view := Function.update m.view x v
  disk := Function.update m.disk x v
  pinned := m.pinned.erase x
  coherent y hy := by
    by_cases h : y = x
    · rw [h, Function.update_self, Function.update_self]
    · rw [Function.update_of_ne h, Function.update_of_ne h]
      exact m.coherent y fun hmem => hy (Finset.mem_erase.mpr ⟨h, hmem⟩)

/-- A block changed in the cache alone, and pinned there. -/
def modify (m : Cached ι ν) (x : ι) (v : ν) : Cached ι ν where
  view := Function.update m.view x v
  disk := m.disk
  pinned := insert x m.pinned
  coherent y hy := by
    rw [Finset.mem_insert, not_or] at hy
    rw [Function.update_of_ne hy.1]
    exact m.coherent y hy.2

@[simp] theorem write_view (m : Cached ι ν) (x : ι) (v : ν) :
    (m.write x v).view = Function.update m.view x v := rfl

@[simp] theorem write_disk (m : Cached ι ν) (x : ι) (v : ν) :
    (m.write x v).disk = Function.update m.disk x v := rfl

@[simp] theorem write_pinned (m : Cached ι ν) (x : ι) (v : ν) :
    (m.write x v).pinned = m.pinned.erase x := rfl

@[simp] theorem modify_view (m : Cached ι ν) (x : ι) (v : ν) :
    (m.modify x v).view = Function.update m.view x v := rfl

@[simp] theorem modify_disk (m : Cached ι ν) (x : ι) (v : ν) : (m.modify x v).disk = m.disk :=
  rfl

@[simp] theorem modify_pinned (m : Cached ι ν) (x : ι) (v : ν) :
    (m.modify x v).pinned = insert x m.pinned := rfl

end Cached

/-! ## One access after the other -/

namespace Prog

/-- The program repeated for `0, 1, …, n - 1`. -/
def forRange (body : ℕ → Prog ε ι ν Unit) : ℕ → Prog ε ι ν Unit
  | 0 => ret ()
  | n + 1 => do
      forRange body n
      body n

variable [DecidableEq ι]

/-- The next access of a program, if there is one. -/
def access : Prog ε ι ν α → Cached ι ν → Option (Prog ε ι ν α × Cached ι ν)
  | ret _, _ => none
  | fail _, _ => none
  | load x k, m => some (k (m.view x), m)
  | store x v p, m => some (p, m.write x v)

/-- **Safe at every crash point**: `C` holds at all times, and the program ends in `Q`. -/
def Keeps (C : Cached ι ν → Prop) (Q : α → Cached ι ν → Prop) : Prog ε ι ν α → Cached ι ν → Prop
  | ret a, m => C m ∧ Q a m
  | fail _, _ => False
  | load x k, m => C m ∧ Keeps C Q (k (m.view x)) m
  | store x v p, m => C m ∧ Keeps C Q p (m.write x v)

/-- **One store at which the program takes effect.** -/
def Switches (C₁ C₂ : Cached ι ν → Prop) (Q : α → Cached ι ν → Prop) :
    Prog ε ι ν α → Cached ι ν → Prop
  | ret _, _ => False
  | fail _, _ => False
  | load x k, m => C₁ m ∧ Switches C₁ C₂ Q (k (m.view x)) m
  | store x v p, m =>
      C₁ m ∧ (Switches C₁ C₂ Q p (m.write x v) ∨ Keeps C₂ Q p (m.write x v))

variable {C C₁ C₂ : Cached ι ν → Prop} {Q : α → Cached ι ν → Prop} {R : β → Cached ι ν → Prop}

theorem Keeps.crash {p : Prog ε ι ν α} {m : Cached ι ν} (h : Keeps C Q p m) : C m := by
  cases p with
  | ret a => exact h.1
  | fail e => exact h.elim
  | load x k => exact h.1
  | store x v p => exact h.1

theorem Switches.crash {p : Prog ε ι ν α} {m : Cached ι ν} (h : Switches C₁ C₂ Q p m) :
    C₁ m := by
  cases p with
  | ret a => exact h.elim
  | fail e => exact h.elim
  | load x k => exact h.1
  | store x v p => exact h.1

/-- An access keeps what is promised of the rest. -/
theorem Keeps.access {p p' : Prog ε ι ν α} {m m' : Cached ι ν} (h : Keeps C Q p m)
    (hstep : p.access m = some (p', m')) : Keeps C Q p' m' := by
  cases p with
  | ret a => cases hstep
  | fail e => cases hstep
  | load x k =>
    obtain ⟨rfl, rfl⟩ := Prod.mk.inj (Option.some.inj hstep)
    exact h.2
  | store x v p =>
    obtain ⟨rfl, rfl⟩ := Prod.mk.inj (Option.some.inj hstep)
    exact h.2

/-- An access goes on towards the effect, or is the effect. -/
theorem Switches.access {p p' : Prog ε ι ν α} {m m' : Cached ι ν} (h : Switches C₁ C₂ Q p m)
    (hstep : p.access m = some (p', m')) : Switches C₁ C₂ Q p' m' ∨ Keeps C₂ Q p' m' := by
  cases p with
  | ret a => cases hstep
  | fail e => cases hstep
  | load x k =>
    obtain ⟨rfl, rfl⟩ := Prod.mk.inj (Option.some.inj hstep)
    exact Or.inl h.2
  | store x v p =>
    obtain ⟨rfl, rfl⟩ := Prod.mk.inj (Option.some.inj hstep)
    exact h.2

/-- **A program with a promise ends**, after finitely many accesses. -/
theorem Keeps.ends : ∀ {p : Prog ε ι ν α} {m : Cached ι ν}, Keeps C Q p m →
    ∃ a m', Relation.ReflTransGen (fun x y => x.1.access x.2 = some y) (p, m) (ret a, m') ∧
      Q a m' := by
  intro p
  induction p with
  | ret a => exact fun h => ⟨a, _, Relation.ReflTransGen.refl, h.2⟩
  | fail e => exact fun h => h.elim
  | load x k ih =>
    intro m h
    obtain ⟨a, m', hrun, hQ⟩ := ih _ h.2
    exact ⟨a, m', Relation.ReflTransGen.head rfl hrun, hQ⟩
  | store x v p ih =>
    intro m h
    obtain ⟨a, m', hrun, hQ⟩ := ih h.2
    exact ⟨a, m', Relation.ReflTransGen.head rfl hrun, hQ⟩

/-! ## Composition -/

theorem Keeps.bind {f : β → Prog ε ι ν α} :
    ∀ {p : Prog ε ι ν β} {m : Cached ι ν}, Keeps C R p m →
      (∀ b m', R b m' → Keeps C Q (f b) m') → Keeps C Q (p >>= f) m := by
  intro p
  induction p with
  | ret b => exact fun h hf => hf b _ h.2
  | fail e => exact fun h _ => h.elim
  | load x k ih => exact fun h hf => ⟨h.1, ih _ h.2 hf⟩
  | store x v p ih => exact fun h hf => ⟨h.1, ih h.2 hf⟩

/-- The effect comes in the second part. -/
theorem Keeps.bind_switches {f : β → Prog ε ι ν α} :
    ∀ {p : Prog ε ι ν β} {m : Cached ι ν}, Keeps C₁ R p m →
      (∀ b m', R b m' → Switches C₁ C₂ Q (f b) m') → Switches C₁ C₂ Q (p >>= f) m := by
  intro p
  induction p with
  | ret b => exact fun h hf => hf b _ h.2
  | fail e => exact fun h _ => h.elim
  | load x k ih => exact fun h hf => ⟨h.1, ih _ h.2 hf⟩
  | store x v p ih => exact fun h hf => ⟨h.1, Or.inl (ih h.2 hf)⟩

/-- The effect comes in the first part. -/
theorem Switches.bind {f : β → Prog ε ι ν α} :
    ∀ {p : Prog ε ι ν β} {m : Cached ι ν}, Switches C₁ C₂ R p m →
      (∀ b m', R b m' → Keeps C₂ Q (f b) m') → Switches C₁ C₂ Q (p >>= f) m := by
  intro p
  induction p with
  | ret b => exact fun h _ => h.elim
  | fail e => exact fun h _ => h.elim
  | load x k ih => exact fun h hf => ⟨h.1, ih _ h.2 hf⟩
  | store x v p ih =>
    intro m h hf
    refine ⟨h.1, ?_⟩
    rcases h.2 with h | h
    · exact Or.inl (ih h hf)
    · exact Or.inr (h.bind hf)

/-- **The rule for loops**: an invariant that a round takes from its number to the next. -/
theorem Keeps.forRange {body : ℕ → Prog ε ι ν Unit} {I : ℕ → Cached ι ν → Prop}
    {n : ℕ} (hC : ∀ k m, I k m → C m)
    (hbody : ∀ k m, k < n → I k m → Keeps C (fun _ m' => I (k + 1) m') (body k) m) :
    ∀ {k : ℕ} {m : Cached ι ν}, k ≤ n → I 0 m →
      Keeps C (fun _ m' => I k m') (Prog.forRange body k) m := by
  intro k
  induction k with
  | zero => exact fun _ hI => ⟨hC 0 _ hI, hI⟩
  | succ k ih => exact fun hk hI => (ih (by omega) hI).bind fun _ m' hm' => hbody k m' hk hm'

end Prog

end Lib
end SystemsProjects
