import SystemsProjects.Painters.Wandering

/-!
# No islands

An artist paints only where its last king step has brought it, and a step that does
not end in a painted pixel is taken back.  So between two turns an artist stands
where it started, or on a pixel of its own, and what it paints hangs together.

The invariant `Wandering` says this at every statement of `paint`: the saved position
is always the start or an own pixel, and the position is one king step from it at
most, also while it is being clamped.
-/

namespace SystemsProjects
namespace Painters

open Lib

/-! ## Connected sets of pixels -/

/-- One king step, or none. -/
def KingStep (p q : Pixel) : Prop := |q.1 - p.1| ≤ 1 ∧ |q.2 - p.2| ≤ 1

/-- A pixel of the canvas. -/
def Inside (p : Pixel) : Prop :=
  0 ≤ p.1 ∧ p.1 < canvasWidth ∧ 0 ≤ p.2 ∧ p.2 < canvasHeight

instance (p : Pixel) : Decidable (Inside p) := inferInstanceAs (Decidable (_ ∧ _))

/-- Any two pixels of `S` are joined by king steps inside `S`. -/
def KingConnected (S : Finset Pixel) : Prop :=
  ∀ p ∈ S, ∀ q ∈ S, Relation.ReflTransGen (fun a b => a ∈ S ∧ b ∈ S ∧ KingStep a b) p q

/-- Each pixel of the list is one king step from `start` or from one behind it. -/
def Grown (start : Pixel) : List Pixel → Prop
  | [] => True
  | p :: rest => (∃ q ∈ start :: rest, KingStep q p) ∧ Grown start rest

theorem kingStep_refl (p : Pixel) : KingStep p p := by
  simp [KingStep]

theorem KingStep.symm {p q : Pixel} (h : KingStep p q) : KingStep q p := by
  obtain ⟨h₁, h₂⟩ := h
  exact ⟨abs_sub_comm q.1 p.1 ▸ h₁, abs_sub_comm q.2 p.2 ▸ h₂⟩

theorem kingConnected_empty : KingConnected ∅ := by
  intro p hp
  simp at hp

theorem kingConnected_singleton (p : Pixel) : KingConnected {p} := by
  intro a ha b hb
  rw [Finset.mem_singleton.mp ha, Finset.mem_singleton.mp hb]

/-- **A neighbour of a connected set** may be added. -/
theorem KingConnected.insert_step {S : Finset Pixel} (h : KingConnected S) {p q : Pixel}
    (hq : q ∈ S) (hstep : KingStep q p) : KingConnected (insert p S) := by
  have hmono : ∀ {a b}, Relation.ReflTransGen
      (fun a b => a ∈ S ∧ b ∈ S ∧ KingStep a b) a b →
      Relation.ReflTransGen
        (fun a b => a ∈ insert p S ∧ b ∈ insert p S ∧ KingStep a b) a b := by
    intro a b
    refine Relation.ReflTransGen.mono (fun c d hcd => ?_) a b
    exact ⟨Finset.mem_insert_of_mem hcd.1, Finset.mem_insert_of_mem hcd.2.1, hcd.2.2⟩
  have hq' : q ∈ insert p S := Finset.mem_insert_of_mem hq
  have hp' : p ∈ insert p S := Finset.mem_insert_self p S
  intro a ha b hb
  rcases Finset.mem_insert.mp ha with rfl | haS
  · rcases Finset.mem_insert.mp hb with rfl | hbS
    · exact Relation.ReflTransGen.refl
    · exact (hmono (h q hq b hbS)).head ⟨hp', hq', hstep.symm⟩
  · rcases Finset.mem_insert.mp hb with rfl | hbS
    · exact (hmono (h a haS q hq)).tail ⟨hq', hp', hstep⟩
    · exact hmono (h a haS b hbS)

/-! ## The invariant -/

/-- Between the first `+=` and the last `if` that clamps. -/
def Statement.Moving : Statement → Prop
  | .moveY | .clampLeft | .clampRight | .clampTop | .clampBottom => True
  | _ => False

/-- Behind the first store of a stroke, which `actuallyPainted` does not count yet. -/
def Statement.uncounted : Statement → ℤ
  | .storeG | .storeB | .unlockPainted => 1
  | _ => 0

/-- Inside the outer `if`. -/
def Statement.Attempt : Statement → Prop
  | .test | .storeR | .storeG | .storeB | .unlockPainted
  | .innerResetX | .innerResetY | .unlockBacktracked => True
  | _ => False

namespace Wanderer

/-- The start as long as nothing is painted, and then the painted pixels. -/
def Home (start : Pixel) (a : Wanderer) (p : Pixel) : Prop :=
  (p = start ∧ a.painted = []) ∨ p ∈ a.painted

/-- The position against the saved one, statement by statement. -/
def Placed (start : Pixel) (a : Wanderer) : Prop :=
  match a.statement with
  | .loop | .unlockBacktracked => a.Home start a.position
  | .storeG | .storeB | .unlockPainted => a.position ∈ a.painted
  | .moveX => a.Home start a.current ∧ a.position = a.current
  | .moveY => a.Home start a.current ∧ KingStep a.current a.position ∧ a.y = a.currentY
  | .clampLeft => a.Home start a.current ∧ KingStep a.current a.position
  | .clampRight => a.Home start a.current ∧ KingStep a.current a.position ∧ 0 ≤ a.x
  | .clampTop => a.Home start a.current ∧ KingStep a.current a.position ∧
      0 ≤ a.x ∧ a.x < canvasWidth
  | .clampBottom => a.Home start a.current ∧ KingStep a.current a.position ∧
      0 ≤ a.x ∧ a.x < canvasWidth ∧ 0 ≤ a.y
  | .innerResetY | .outerResetY => a.Home start a.current ∧
      KingStep a.current a.position ∧ Inside a.position ∧ a.x = a.currentX
  | _ => a.Home start a.current ∧ KingStep a.current a.position ∧ Inside a.position

end Wanderer

/-- **The invariant** of one artist that has started on `start`. -/
structure Wandering (start : Pixel) (a : Wanderer) : Prop where
  inside : ∀ p ∈ start :: a.painted, Inside p
  placed : a.Placed start
  grown : Grown start a.painted
  connected : KingConnected a.painted.toFinset
  /-- every stroke is an attempt -/
  count : (a.painted.toFinset.card : ℤ) ≤ a.actuallyPainted + a.statement.uncounted
  attempts : a.actuallyPainted ≤ 5000
  attempt : a.statement.Attempt → a.actuallyPainted < 5000

/-- A thread that is about to enter its loop. -/
structure Wanderer.Start (a : Wanderer) : Prop where
  statement : a.statement = .loop
  actuallyPainted : a.actuallyPainted = 0
  z : a.z = 0
  painted : a.painted = []
  inside : Inside a.position

variable {start : Pixel} {a b : Wanderer}

theorem wandering_of_start (h : a.Start) : Wandering a.position a where
  inside p hp := by
    rw [h.painted, List.mem_singleton] at hp
    rw [hp]
    exact h.inside
  placed := by
    rw [Wanderer.Placed, h.statement]
    exact Or.inl ⟨rfl, h.painted⟩
  grown := by
    rw [h.painted]
    trivial
  connected := by
    rw [h.painted]
    exact kingConnected_empty
  count := by
    rw [h.painted, h.statement, h.actuallyPainted]
    decide
  attempts := by
    rw [h.actuallyPainted]
    decide
  attempt hs := by
    rw [h.statement] at hs
    exact hs.elim

theorem Wanderer.Home.mem {p : Pixel} (h : a.Home start p) : p ∈ start :: a.painted := by
  rcases h with ⟨rfl, -⟩ | h
  · exact List.mem_cons_self
  · exact List.mem_cons_of_mem _ h

theorem Wandering.home_inside (h : Wandering start a) {p : Pixel} (hp : a.Home start p) :
    Inside p :=
  h.inside p hp.mem

/-- A statement that paints nothing. -/
theorem Wandering.quiet (h : Wandering start a) (hpainted : b.painted = a.painted)
    (hplaced : b.Placed start)
    (hcount : a.actuallyPainted + a.statement.uncounted ≤
      b.actuallyPainted + b.statement.uncounted)
    (hattempts : b.actuallyPainted ≤ 5000)
    (hattempt : b.statement.Attempt → b.actuallyPainted < 5000) : Wandering start b where
  inside := hpainted ▸ h.inside
  placed := hplaced
  grown := hpainted ▸ h.grown
  connected := hpainted ▸ h.connected
  count := hpainted ▸ h.count.trans hcount
  attempts := hattempts
  attempt := hattempt

/-- A store on a pixel next to home. -/
theorem Wandering.store (h : Wandering start a) {next : Statement} {p : Pixel}
    (hhome : a.Home start p) (hstep : KingStep p a.position) (hinside : Inside a.position)
    (hnext : next.Attempt ∧ next.uncounted = 1)
    (hplaced : (a.store next).Placed start) (hattempt : a.actuallyPainted < 5000)
    (hcard : ((insert a.position a.painted.toFinset).card : ℤ) ≤ a.actuallyPainted + 1) :
    Wandering start (a.store next) where
  inside q hq := by
    rcases List.mem_cons.mp hq with rfl | hq
    · exact h.inside _ List.mem_cons_self
    · rcases List.mem_cons.mp hq with rfl | hq
      · exact hinside
      · exact h.inside q (List.mem_cons_of_mem _ hq)
  placed := hplaced
  grown := ⟨⟨p, hhome.mem, hstep⟩, h.grown⟩
  connected := by
    change KingConnected (a.position :: a.painted).toFinset
    rw [List.toFinset_cons]
    rcases hhome with ⟨-, hnil⟩ | hmem
    · rw [hnil]
      exact kingConnected_singleton a.position
    · exact h.connected.insert_step (List.mem_toFinset.mpr hmem) hstep
  count := by
    change ((a.position :: a.painted).toFinset.card : ℤ) ≤ a.actuallyPainted + next.uncounted
    rw [List.toFinset_cons, hnext.2]
    exact hcard
  attempts := hattempt.le
  attempt _ := hattempt

/-! ## Moving and clamping -/

theorem movement_near (roll : ℕ) : |(movement roll).1| ≤ 1 ∧ |(movement roll).2| ≤ 1 := by
  rcases Nat.lt_or_ge roll 8 with h | h
  · interval_cases roll <;> decide
  · rw [movement, List.getD_eq_default _ _ (by simpa using h)]
    decide

theorem clampLow_near {c v : ℤ} (hc : 0 ≤ c) (h : |v - c| ≤ 1) :
    |(if v < 0 then 0 else v) - c| ≤ 1 ∧ 0 ≤ (if v < 0 then 0 else v) := by
  rw [abs_le] at h ⊢
  split <;> omega

theorem clampHigh_near {c v bound : ℤ} (hc : c < bound) (h : |v - c| ≤ 1) :
    |(if v > bound - 1 then bound - 1 else v) - c| ≤ 1 ∧
      (if v > bound - 1 then bound - 1 else v) < bound := by
  rw [abs_le] at h ⊢
  split <;> omega

theorem clampHigh_nonneg {v bound : ℤ} (hbound : 0 < bound) (hv : 0 ≤ v) :
    0 ≤ (if v > bound - 1 then bound - 1 else v) := by
  split <;> omega

/-! ## Every statement keeps the invariant -/

/-- The pixel of a first store is one more at most. -/
theorem Wandering.card_first (h : Wandering start a) (hst : a.statement = .storeR) :
    ((insert a.position a.painted.toFinset).card : ℤ) ≤ a.actuallyPainted + 1 := by
  have hcount := h.count
  have hinsert := Finset.card_insert_le a.position a.painted.toFinset
  rw [hst, show Statement.storeR.uncounted = 0 from rfl] at hcount
  omega

/-- A later store of the same stroke, on a pixel that is counted already. -/
theorem Wandering.restore (h : Wandering start a) {next : Statement}
    (hmem : a.position ∈ a.painted) (hst : a.statement.uncounted = 1)
    (hattempt : a.actuallyPainted < 5000) (hnext : next.Attempt ∧ next.uncounted = 1)
    (hplaced : (a.store next).Placed start) : Wandering start (a.store next) := by
  refine h.store (Or.inr hmem) (kingStep_refl _) (h.inside _ (List.mem_cons_of_mem _ hmem))
    hnext hplaced hattempt ?_
  rw [Finset.insert_eq_of_mem (List.mem_toFinset.mpr hmem), ← hst]
  exact h.count

/-- The end of an attempt, at home again. -/
theorem Wandering.attempted (h : Wandering start a) (hhome : a.Home start a.position)
    (hst : a.statement.uncounted ≤ 1) (hattempt : a.actuallyPainted < 5000) :
    Wandering start a.countAttempt := by
  refine h.quiet rfl hhome ?_ (Int.add_one_le_of_lt hattempt) False.elim
  change a.actuallyPainted + a.statement.uncounted ≤ a.actuallyPainted + 1 + 0
  omega

/-- The first half of a reset. -/
theorem Wandering.resetX (h : Wandering start a) (hhome : a.Home start a.current)
    (hnear : KingStep a.current a.position) (hinside : Inside a.position) :
    KingStep a.current (a.currentX, a.y) ∧ Inside (a.currentX, a.y) := by
  obtain ⟨hleft, hright, -, -⟩ := h.home_inside hhome
  exact ⟨⟨(kingStep_refl a.current).1, hnear.2⟩, hleft, hright, hinside.2.2⟩

theorem Wandering.step (h : Wandering start a) {e : ℕ × Bool} (hstep : execute a e = some b) :
    Wandering start b := by
  obtain ⟨rand, answer⟩ := e
  have hplaced := h.placed
  cases hst : a.statement with
  | loop =>
    simp only [execute, hst] at hstep
    simp only [Wanderer.Placed, hst] at hplaced
    split at hstep
    · cases hstep
      exact h.quiet rfl ⟨hplaced, rfl⟩ (by rw [hst]; exact le_rfl) h.attempts False.elim
    · cases hstep
  | moveX =>
    simp only [execute, hst, Option.some.injEq] at hstep
    simp only [Wanderer.Placed, hst] at hplaced
    obtain ⟨hhome, hpos⟩ := hplaced
    obtain ⟨hx, hy⟩ := Prod.mk.inj hpos
    subst hstep
    refine h.quiet rfl ⟨hhome, ⟨?_, ?_⟩, hy⟩ (by rw [hst]; exact le_rfl) h.attempts False.elim
    · simpa [Wanderer.current, Wanderer.position, hx] using (movement_near a.roll).1
    · simp [Wanderer.current, Wanderer.position, hy]
  | moveY =>
    simp only [execute, hst, Option.some.injEq] at hstep
    simp only [Wanderer.Placed, hst] at hplaced
    obtain ⟨hhome, hnear, hy⟩ := hplaced
    subst hstep
    refine h.quiet rfl ⟨hhome, hnear.1, ?_⟩ (by rw [hst]; exact le_rfl) h.attempts False.elim
    simpa [Wanderer.current, Wanderer.position, hy] using (movement_near a.roll).2
  | clampLeft =>
    simp only [execute, hst, Option.some.injEq] at hstep
    simp only [Wanderer.Placed, hst] at hplaced
    obtain ⟨hhome, hnear⟩ := hplaced
    obtain ⟨hx, hlow⟩ := clampLow_near (h.home_inside hhome).1 hnear.1
    subst hstep
    exact h.quiet rfl ⟨hhome, ⟨hx, hnear.2⟩, hlow⟩ (by rw [hst]; exact le_rfl) h.attempts
      False.elim
  | clampRight =>
    simp only [execute, hst, Option.some.injEq] at hstep
    simp only [Wanderer.Placed, hst] at hplaced
    obtain ⟨hhome, hnear, hlow⟩ := hplaced
    obtain ⟨hx, hhigh⟩ := clampHigh_near (h.home_inside hhome).2.1 hnear.1
    subst hstep
    exact h.quiet rfl ⟨hhome, ⟨hx, hnear.2⟩, clampHigh_nonneg (by decide) hlow, hhigh⟩
      (by rw [hst]; exact le_rfl) h.attempts False.elim
  | clampTop =>
    simp only [execute, hst, Option.some.injEq] at hstep
    simp only [Wanderer.Placed, hst] at hplaced
    obtain ⟨hhome, hnear, hleft, hright⟩ := hplaced
    obtain ⟨hy, hlow⟩ := clampLow_near (h.home_inside hhome).2.2.1 hnear.2
    subst hstep
    exact h.quiet rfl ⟨hhome, ⟨hnear.1, hy⟩, hleft, hright, hlow⟩ (by rw [hst]; exact le_rfl)
      h.attempts False.elim
  | clampBottom =>
    simp only [execute, hst, Option.some.injEq] at hstep
    simp only [Wanderer.Placed, hst] at hplaced
    obtain ⟨hhome, hnear, hleft, hright, hlow⟩ := hplaced
    obtain ⟨hy, hhigh⟩ := clampHigh_near (h.home_inside hhome).2.2.2 hnear.2
    subst hstep
    exact h.quiet rfl ⟨hhome, ⟨hnear.1, hy⟩, hleft, hright,
      clampHigh_nonneg (by decide) hlow, hhigh⟩ (by rw [hst]; exact le_rfl) h.attempts
      False.elim
  | trylock =>
    simp only [execute, hst] at hstep
    simp only [Wanderer.Placed, hst] at hplaced
    split at hstep
    · rename_i hentered
      cases hstep
      exact h.quiet rfl hplaced (by rw [hst]; exact le_rfl) h.attempts fun _ => hentered.2
    · cases hstep
      exact h.quiet rfl hplaced (by rw [hst]; exact le_rfl) h.attempts False.elim
  | test =>
    simp only [execute, hst] at hstep
    simp only [Wanderer.Placed, hst] at hplaced
    have hattempt := h.attempt (by rw [hst]; trivial)
    split at hstep
    · cases hstep
      exact h.quiet rfl hplaced (by rw [hst]; exact le_rfl) h.attempts fun _ => hattempt
    · cases hstep
      exact h.quiet rfl hplaced (by rw [hst]; exact le_rfl) h.attempts fun _ => hattempt
  | storeR =>
    simp only [execute, hst, Option.some.injEq] at hstep
    simp only [Wanderer.Placed, hst] at hplaced
    obtain ⟨hhome, hnear, hinside⟩ := hplaced
    subst hstep
    exact h.store hhome hnear hinside ⟨trivial, rfl⟩ List.mem_cons_self
      (h.attempt (by rw [hst]; trivial)) (h.card_first hst)
  | storeG =>
    simp only [execute, hst, Option.some.injEq] at hstep
    simp only [Wanderer.Placed, hst] at hplaced
    subst hstep
    exact h.restore hplaced (by rw [hst]; rfl) (h.attempt (by rw [hst]; trivial))
      ⟨trivial, rfl⟩ List.mem_cons_self
  | storeB =>
    simp only [execute, hst, Option.some.injEq] at hstep
    simp only [Wanderer.Placed, hst] at hplaced
    subst hstep
    exact h.restore hplaced (by rw [hst]; rfl) (h.attempt (by rw [hst]; trivial))
      ⟨trivial, rfl⟩ List.mem_cons_self
  | unlockPainted =>
    simp only [execute, hst, Option.some.injEq] at hstep
    simp only [Wanderer.Placed, hst] at hplaced
    subst hstep
    exact h.attempted (Or.inr hplaced) (by rw [hst]; exact le_rfl)
      (h.attempt (by rw [hst]; trivial))
  | innerResetX =>
    simp only [execute, hst, Option.some.injEq] at hstep
    simp only [Wanderer.Placed, hst] at hplaced
    obtain ⟨hhome, hnear, hinside⟩ := hplaced
    obtain ⟨hnear', hinside'⟩ := h.resetX hhome hnear hinside
    subst hstep
    exact h.quiet rfl ⟨hhome, hnear', hinside', rfl⟩ (by rw [hst]; exact le_rfl) h.attempts
      fun _ => h.attempt (by rw [hst]; trivial)
  | innerResetY =>
    simp only [execute, hst, Option.some.injEq] at hstep
    simp only [Wanderer.Placed, hst] at hplaced
    obtain ⟨hhome, -, -, hx⟩ := hplaced
    subst hstep
    refine h.quiet rfl ?_ (by rw [hst]; exact le_rfl) h.attempts
      fun _ => h.attempt (by rw [hst]; trivial)
    rw [Wanderer.current, ← hx] at hhome
    exact hhome
  | unlockBacktracked =>
    simp only [execute, hst, Option.some.injEq] at hstep
    simp only [Wanderer.Placed, hst] at hplaced
    subst hstep
    exact h.attempted hplaced (by rw [hst]; decide) (h.attempt (by rw [hst]; trivial))
  | outerResetX =>
    simp only [execute, hst, Option.some.injEq] at hstep
    simp only [Wanderer.Placed, hst] at hplaced
    obtain ⟨hhome, hnear, hinside⟩ := hplaced
    obtain ⟨hnear', hinside'⟩ := h.resetX hhome hnear hinside
    subst hstep
    exact h.quiet rfl ⟨hhome, hnear', hinside', rfl⟩ (by rw [hst]; exact le_rfl) h.attempts
      False.elim
  | outerResetY =>
    simp only [execute, hst, Option.some.injEq] at hstep
    simp only [Wanderer.Placed, hst] at hplaced
    obtain ⟨hhome, -, -, hx⟩ := hplaced
    subst hstep
    refine h.quiet rfl ?_ (by rw [hst]; exact le_rfl) h.attempts False.elim
    rw [Wanderer.current, ← hx] at hhome
    exact hhome

theorem wandering_of_run {s t : Wanderer} {tr : List ((ℕ × Bool) × Unit)} (hs : s.Start)
    (h : Run Executes s tr t) : Wandering s.position t :=
  h.invariant (P := Wandering s.position) (fun _ _ _ _ hP hstep => hP.step hstep)
    (wandering_of_start hs)

/-! ## What the invariant says about the position -/

/-- Outside the statements that move and clamp, an artist stands on the canvas. -/
theorem Wandering.inside_position (h : Wandering start a) (hst : ¬ a.statement.Moving) :
    Inside a.position := by
  have hplaced := h.placed
  cases hst' : a.statement <;> simp only [Wanderer.Placed, hst'] at hplaced
  case loop => exact h.home_inside hplaced
  case unlockBacktracked => exact h.home_inside hplaced
  case moveX => exact hplaced.2 ▸ h.home_inside hplaced.1
  case storeG => exact h.inside _ (List.mem_cons_of_mem _ hplaced)
  case storeB => exact h.inside _ (List.mem_cons_of_mem _ hplaced)
  case unlockPainted => exact h.inside _ (List.mem_cons_of_mem _ hplaced)
  case trylock => exact hplaced.2.2
  case test => exact hplaced.2.2
  case storeR => exact hplaced.2.2
  case innerResetX => exact hplaced.2.2
  case innerResetY => exact hplaced.2.2.1
  case outerResetX => exact hplaced.2.2
  case outerResetY => exact hplaced.2.2.1
  all_goals exact absurd (by rw [hst']; trivial) hst

/-- While the position is moved and clamped, it is one off the canvas at most. -/
theorem Wandering.near_canvas (h : Wandering start a) (hst : a.statement.Moving) :
    ∃ p, Inside p ∧ KingStep p a.position := by
  have hplaced := h.placed
  cases hst' : a.statement <;> simp only [Wanderer.Placed, hst'] at hplaced
  case moveY => exact ⟨_, h.home_inside hplaced.1, hplaced.2.1⟩
  case clampLeft => exact ⟨_, h.home_inside hplaced.1, hplaced.2⟩
  case clampRight => exact ⟨_, h.home_inside hplaced.1, hplaced.2.1⟩
  case clampTop => exact ⟨_, h.home_inside hplaced.1, hplaced.2.1⟩
  case clampBottom => exact ⟨_, h.home_inside hplaced.1, hplaced.2.1⟩
  all_goals
    rw [hst'] at hst
    exact hst.elim

/-- **No islands.**  Whatever `rand`, the `trylock`s and the tests against white
answer: the artist stands on the canvas, except that it may be one off while its
position is moved and clamped; what it has painted is connected under king moves and
has grown from its start; and it has 5000 pixels at most. -/
theorem no_islands {s t : Wanderer} {tr : List ((ℕ × Bool) × Unit)} (hs : s.Start)
    (h : Run Executes s tr t) :
    (¬ t.statement.Moving → Inside t.position) ∧
      (t.statement.Moving → ∃ p, Inside p ∧ KingStep p t.position) ∧
      KingConnected t.painted.toFinset ∧ Grown s.position t.painted ∧
      (∀ p ∈ t.painted, Inside p) ∧ t.painted.toFinset.card ≤ 5000 := by
  have hw := wandering_of_run hs h
  refine ⟨hw.inside_position, hw.near_canvas, hw.connected, hw.grown,
    fun p hp => hw.inside p (List.mem_cons_of_mem _ hp), ?_⟩
  have hcount := hw.count
  have hattempts := hw.attempts
  have hattempt := hw.attempt
  cases hst : t.statement <;>
    simp only [hst, Statement.uncounted, Statement.Attempt, true_implies] at hcount hattempt <;>
    omega

/-! ## Artists among others -/

variable {ι : Type*} [DecidableEq ι]

theorem wanderer_start {w : World ι} (h : Initial w) (i : ι) : (w.wanderer i 0).Start where
  statement := by
    simp [World.wanderer, h.pc i, PC.statement]
  actuallyPainted := h.painted i
  z := h.z i
  painted := by
    simp [World.wanderer, h.strokes]
  inside := h.inside i

/-- The pixels that every artist of a canvas has painted are connected. -/
theorem no_islands_among_others {w₀ w : World ι} {tr : List ((ι × ℕ) × Unit)}
    (hinit : Initial w₀) (h : Run Step w₀ tr w) (i : ι) :
    KingConnected ((w.strokes.filter fun e => e.1 = i).map Prod.snd).toFinset := by
  obtain ⟨tr', roll', hrun⟩ := wanders_of_run h i 0
  exact (wandering_of_run (wanderer_start hinit i) hrun).connected

/-! ## Six turns from the corner -/

/-- An artist in the corner `(0, 0)`, where Michaelangelo starts. -/
def cornerArtist : Wanderer where
  statement := .loop
  x := 0
  y := 0
  currentX := 0
  currentY := 0
  roll := 0
  actuallyPainted := 0
  z := 0
  painted := []

theorem cornerArtist_start : cornerArtist.Start :=
  ⟨rfl, rfl, rfl, rfl, by decide, by decide, by decide, by decide⟩

/-- A turn that paints. -/
def paintingTurn (rand : ℕ) : List (ℕ × Bool) := (rand, true) :: List.replicate 12 (0, true)

/-- A turn that takes the mutex of a pixel which is not white any more. -/
def colouredTurn (rand : ℕ) : List (ℕ × Bool) :=
  (rand, true) :: List.replicate 7 (0, true) ++ [(0, false), (0, true), (0, true), (0, true)]

/-- A turn whose `trylock` fails. -/
def lockedTurn (rand : ℕ) : List (ℕ × Bool) :=
  (rand, true) :: List.replicate 6 (0, true) ++ [(0, false), (0, true), (0, true)]

/-- Up and to the left, which is clamped to the corner itself; two pixels on; a coloured
one and a locked one; and a last pixel. -/
def firstTurns : List (ℕ × Bool) :=
  paintingTurn 7 ++ paintingTurn 4 ++ paintingTurn 3 ++ colouredTurn 4 ++ lockedTurn 2 ++
    paintingTurn 0

/-- The corner artist behind these turns. -/
def turnedArtist : Wanderer where
  statement := .loop
  x := 1
  y := 1
  currentX := 2
  currentY := 1
  roll := 0
  actuallyPainted := 5
  z := 6
  painted := [(1, 1), (1, 1), (1, 1), (2, 1), (2, 1), (2, 1), (1, 0), (1, 0), (1, 0),
    (0, 0), (0, 0), (0, 0)]

theorem firstTurns_run : firstTurns.foldlM execute cornerArtist = some turnedArtist := by
  decide +kernel

theorem no_islands_corner : cornerArtist.Start ∧ Inside turnedArtist.position ∧
    KingConnected turnedArtist.painted.toFinset ∧
    Grown cornerArtist.position turnedArtist.painted ∧
    turnedArtist.painted.toFinset = {(0, 0), (1, 0), (2, 1), (1, 1)} := by
  obtain ⟨hinside, -, hconnected, hgrown, -⟩ :=
    no_islands cornerArtist_start (Run.of_foldlM firstTurns_run)
  exact ⟨cornerArtist_start, hinside id, hconnected, hgrown, by decide⟩

/-- **Not at every moment**: from the corner the first roll may be a move to the left,
and behind `painter->x += movement[roll][0]` the position is off the canvas until it is
clamped. -/
theorem not_always_inside : cornerArtist.Start ∧
    ∃ t, Run Executes cornerArtist [((0, true), ()), ((0, true), ())] t ∧
      t.position = (-1, 0) ∧ ¬ Inside t.position :=
  ⟨cornerArtist_start, _, Run.cons rfl (Run.cons rfl (Run.nil _)), by decide, by decide⟩

end Painters
end SystemsProjects
