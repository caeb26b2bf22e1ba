import SystemsProjects.Painters.Canvas

/-!
# One artist, statement by statement

`paint` again, for one artist and one statement at a time.  The other artists are
seen only through what a `trylock` and a test against white answer, and here any
answer may come.  Between the first `+=` and the last of the four tests that clamp
it, the position of an artist is a number of its own and may lie outside the
canvas.

A step of `Canvas` is a short run of these statements, `wanders_of_step`, so what is
shown for one artist with any answers holds for every artist among others.
-/

namespace SystemsProjects
namespace Painters

open Lib

/-- The statements of the loop of `paint`. -/
inductive Statement where
  /-- the test of `z`, the saving of the position, and the roll -/
  | loop
  | moveX
  | moveY
  /-- `if(painter->x < 0)` -/
  | clampLeft
  /-- `if(painter->x > CANVAS_WIDTH-1)` -/
  | clampRight
  /-- `if(painter->y < 0)` -/
  | clampTop
  /-- `if(painter->y > CANVAS_HEIGHT-1)` -/
  | clampBottom
  | trylock
  /-- the test against white -/
  | test
  | storeR
  | storeG
  | storeB
  | unlockPainted
  /-- `painter->x = currentX` of the inner `else` -/
  | innerResetX
  | innerResetY
  | unlockBacktracked
  /-- `painter->x = currentX` of the outer `else` -/
  | outerResetX
  | outerResetY
  deriving DecidableEq, Repr

/-- An artist between two statements, with the pixels it has stored to, newest
first. -/
structure Wanderer where
  statement : Statement
  x : ℤ
  y : ℤ
  currentX : ℤ
  currentY : ℤ
  roll : ℕ
  actuallyPainted : ℤ
  z : ℤ
  painted : List Pixel
  deriving DecidableEq

namespace Wanderer

/-- The pixel that the artist stands on. -/
def position (a : Wanderer) : Pixel := (a.x, a.y)

/-- The pixel that the artist was on before its last move. -/
def current (a : Wanderer) : Pixel := (a.currentX, a.currentY)

/-- `++actuallyPainted`, behind either `unlock`, and `z++`. -/
def countAttempt (a : Wanderer) : Wanderer :=
  { a with actuallyPainted := a.actuallyPainted + 1, z := a.z + 1, statement := .loop }

/-- A store of one component of the colour. -/
def store (a : Wanderer) (next : Statement) : Wanderer :=
  { a with painted := a.position :: a.painted, statement := next }

end Wanderer

/-- **One statement**, with the value of `rand()` and the answer of the `trylock` or
of the test against white, where they are asked for. -/
def execute (a : Wanderer) : ℕ × Bool → Option Wanderer
  | (rand, answer) =>
    match a.statement with
    | .loop =>
      if a.z < 20000 then
        some { a with
          currentX := a.x, currentY := a.y, roll := rand % 8, statement := .moveX }
      else none
    | .moveX => some { a with x := a.x + (movement a.roll).1, statement := .moveY }
    | .moveY => some { a with y := a.y + (movement a.roll).2, statement := .clampLeft }
    | .clampLeft => some { a with x := if a.x < 0 then 0 else a.x, statement := .clampRight }
    | .clampRight => some { a with
        x := if a.x > canvasWidth - 1 then canvasWidth - 1 else a.x, statement := .clampTop }
    | .clampTop => some { a with y := if a.y < 0 then 0 else a.y, statement := .clampBottom }
    | .clampBottom => some { a with
        y := if a.y > canvasHeight - 1 then canvasHeight - 1 else a.y, statement := .trylock }
    | .trylock =>
      if answer ∧ a.actuallyPainted < 5000 then some { a with statement := .test }
      else some { a with statement := .outerResetX }
    | .test =>
      if answer then some { a with statement := .storeR }
      else some { a with statement := .innerResetX }
    | .storeR => some (a.store .storeG)
    | .storeG => some (a.store .storeB)
    | .storeB => some (a.store .unlockPainted)
    | .unlockPainted => some a.countAttempt
    | .innerResetX => some { a with x := a.currentX, statement := .innerResetY }
    | .innerResetY => some { a with y := a.currentY, statement := .unlockBacktracked }
    | .unlockBacktracked => some a.countAttempt
    | .outerResetX => some { a with x := a.currentX, statement := .outerResetY }
    | .outerResetY => some { a with y := a.currentY, z := a.z + 1, statement := .loop }

/-- The statements as a step relation, the answers as its input. -/
def Executes (a : Wanderer) (e : ℕ × Bool) (_ : Unit) (b : Wanderer) : Prop :=
  execute a e = some b

/-! ## An artist among others -/

/-- The statement behind which a thread makes its next access. -/
def PC.statement : PC → Statement
  | .loop => .loop
  | .test => .test
  | .storeR => .storeR
  | .storeG => .storeG
  | .storeB => .storeB
  | .unlockPainted => .unlockPainted
  | .unlockBacktracked => .unlockBacktracked

variable {ι : Type*} [DecidableEq ι]

/-- What a world shows of the thread `i`; the last roll is not kept there. -/
def World.wanderer (w : World ι) (i : ι) (roll : ℕ) : Wanderer :=
  let a := w.artist i
  { statement := a.pc.statement, x := a.x, y := a.y, currentX := a.currentX
    currentY := a.currentY, roll := roll, actuallyPainted := a.actuallyPainted, z := a.z
    painted := (w.strokes.filter fun e => e.1 = i).map Prod.snd }

/-- From the head of the loop to the `trylock`. -/
theorem execute_move {a : Wanderer} (hst : a.statement = .loop) (hz : a.z < 20000)
    (rand : ℕ) (rest : List (ℕ × Bool)) :
    ((rand, true) :: List.replicate 6 (0, true) ++ rest).foldlM execute a =
      rest.foldlM execute { a with
        currentX := a.x, currentY := a.y, roll := rand % 8
        x := clamp canvasWidth (a.x + (movement (rand % 8)).1)
        y := clamp canvasHeight (a.y + (movement (rand % 8)).2)
        statement := .trylock } := by
  simp [execute, hst, hz, clamp, List.replicate]

/-- The turn of a thread up to the first access behind the `trylock`. -/
theorem wanders_of_trylock {w w' : World ι} {i : ι} {rand : ℕ} {taken : Bool}
    (hpc : (w.artist i).pc = .loop) (hz : (w.artist i).z < 20000)
    (hartist : w'.artist i = afterTrylock taken (move rand (w.artist i)))
    (hstrokes : w'.strokes = w.strokes) (roll : ℕ) :
    ∃ tr roll', Run Executes (w.wanderer i roll) tr (w'.wanderer i roll') := by
  have hst : (w.wanderer i roll).statement = .loop := by
    simp [World.wanderer, hpc, PC.statement]
  rw [afterTrylock] at hartist
  split at hartist
  · rename_i hentered
    refine ⟨_, rand % 8, Run.of_foldlM
      (l := (rand, true) :: List.replicate 6 (0, true) ++ [(0, true)]) ?_⟩
    have hlt : (w.artist i).actuallyPainted < 5000 := hentered.2
    rw [execute_move hst hz]
    simp [World.wanderer, PC.statement, execute, hartist, hstrokes, move, hlt]
  · rename_i hrefused
    refine ⟨_, rand % 8, Run.of_foldlM (l := (rand, true) :: List.replicate 6 (0, true) ++
      [(0, taken), (0, true), (0, true)]) ?_⟩
    have hnot : ¬ (taken = true ∧ (w.artist i).actuallyPainted < 5000) := hrefused
    rw [execute_move hst hz]
    simp [World.wanderer, PC.statement, execute, hartist, hstrokes, move, nextTurn,
      backtrack, hnot]

/-- **A step of a thread among others** is a run of its own statements. -/
theorem wanders_of_step {w w' : World ι} {i : ι} {rand : ℕ} (h : step w (i, rand) = some w')
    (roll : ℕ) :
    ∃ tr roll', Run Executes (w.wanderer i roll) tr (w'.wanderer i roll') := by
  cases hpc : (w.artist i).pc with
  | loop =>
    simp only [step, hpc] at h
    split at h
    · rename_i hz
      rw [Option.some.injEq] at h
      rcases trylock_cases w i (move rand (w.artist i)) with ⟨-, hw⟩ | ⟨-, hw⟩
      · rw [hw] at h
        exact wanders_of_trylock hpc hz (h ▸ setArtist_self _ i _) (h ▸ rfl) roll
      · rw [hw] at h
        exact wanders_of_trylock hpc hz (h ▸ setArtist_self _ i _) (h ▸ rfl) roll
    · cases h
  | test =>
    simp only [step, hpc, Option.some.injEq] at h
    subst h
    rw [afterTest]
    split
    · refine ⟨_, roll, Run.of_foldlM (l := [(0, true)]) ?_⟩
      simp [World.wanderer, hpc, PC.statement, execute]
    · refine ⟨_, roll, Run.of_foldlM (l := [(0, false), (0, true), (0, true)]) ?_⟩
      simp [World.wanderer, hpc, PC.statement, execute, backtrack]
  | storeR =>
    simp only [step, hpc, Option.some.injEq] at h
    subst h
    refine ⟨_, roll, Run.of_foldlM (l := [(0, true)]) ?_⟩
    simp [World.wanderer, hpc, PC.statement, execute, World.store, Wanderer.store,
      Wanderer.position, Painter.position]
  | storeG =>
    simp only [step, hpc, Option.some.injEq] at h
    subst h
    refine ⟨_, roll, Run.of_foldlM (l := [(0, true)]) ?_⟩
    simp [World.wanderer, hpc, PC.statement, execute, World.store, Wanderer.store,
      Wanderer.position, Painter.position]
  | storeB =>
    simp only [step, hpc, Option.some.injEq] at h
    subst h
    refine ⟨_, roll, Run.of_foldlM (l := [(0, true)]) ?_⟩
    simp [World.wanderer, hpc, PC.statement, execute, World.store, Wanderer.store,
      Wanderer.position, Painter.position]
  | unlockPainted =>
    simp only [step, hpc, Option.some.injEq] at h
    subst h
    refine ⟨_, roll, Run.of_foldlM (l := [(0, true)]) ?_⟩
    simp [World.wanderer, hpc, PC.statement, execute, World.unlock, afterUnlock, nextTurn,
      Wanderer.countAttempt]
  | unlockBacktracked =>
    simp only [step, hpc, Option.some.injEq] at h
    subst h
    refine ⟨_, roll, Run.of_foldlM (l := [(0, true)]) ?_⟩
    simp [World.wanderer, hpc, PC.statement, execute, World.unlock, afterUnlock, nextTurn,
      Wanderer.countAttempt]

/-- A thread changes no other thread, and the strokes it adds are its own. -/
theorem step_frame {w w' : World ι} {i : ι} {rand : ℕ} (h : step w (i, rand) = some w') :
    (∀ j, j ≠ i → w'.artist j = w.artist j) ∧
      (w'.strokes = w.strokes ∨ ∃ p, w'.strokes = (i, p) :: w.strokes) := by
  cases hpc : (w.artist i).pc with
  | loop =>
    simp only [step, hpc] at h
    split at h
    · rw [Option.some.injEq] at h
      rcases trylock_cases w i (move rand (w.artist i)) with ⟨-, hw⟩ | ⟨-, hw⟩
      · exact h ▸ hw ▸ ⟨fun j hj => setArtist_of_ne _ hj _, Or.inl rfl⟩
      · exact h ▸ hw ▸ ⟨fun j hj => setArtist_of_ne _ hj _, Or.inl rfl⟩
    · cases h
  | storeR =>
    simp only [step, hpc, Option.some.injEq] at h
    exact h ▸ ⟨fun j hj => setArtist_of_ne _ hj _, Or.inr ⟨_, rfl⟩⟩
  | storeG =>
    simp only [step, hpc, Option.some.injEq] at h
    exact h ▸ ⟨fun j hj => setArtist_of_ne _ hj _, Or.inr ⟨_, rfl⟩⟩
  | storeB =>
    simp only [step, hpc, Option.some.injEq] at h
    exact h ▸ ⟨fun j hj => setArtist_of_ne _ hj _, Or.inr ⟨_, rfl⟩⟩
  | _ =>
    simp only [step, hpc, Option.some.injEq] at h
    exact h ▸ ⟨fun j hj => setArtist_of_ne _ hj _, Or.inl rfl⟩

/-- The steps of the others are not seen. -/
theorem wanderer_of_ne {w w' : World ι} {i j : ι} {rand : ℕ} (hne : j ≠ i)
    (h : step w (i, rand) = some w') (roll : ℕ) : w'.wanderer j roll = w.wanderer j roll := by
  obtain ⟨hartist, hstrokes⟩ := step_frame h
  rcases hstrokes with hstrokes | ⟨p, hstrokes⟩
  · simp [World.wanderer, hartist j hne, hstrokes]
  · simp [World.wanderer, hartist j hne, hstrokes, Ne.symm hne]

/-- **Every thread of a run wanders alone**, as far as it can tell. -/
theorem wanders_of_run {w w' : World ι} {tr : List ((ι × ℕ) × Unit)} (h : Run Step w tr w')
    (j : ι) (roll : ℕ) :
    ∃ tr' roll', Run Executes (w.wanderer j roll) tr' (w'.wanderer j roll') := by
  induction h generalizing roll with
  | nil => exact ⟨[], roll, Run.nil _⟩
  | @cons s t u e o tr hstep hrest ih =>
    obtain ⟨i, rand⟩ := e
    by_cases hj : j = i
    · subst hj
      obtain ⟨tr₁, roll₁, h₁⟩ := wanders_of_step hstep roll
      obtain ⟨tr₂, roll₂, h₂⟩ := ih roll₁
      exact ⟨tr₁ ++ tr₂, roll₂, h₁.append h₂⟩
    · obtain ⟨tr₂, roll₂, h₂⟩ := ih roll
      rw [wanderer_of_ne hj hstep] at h₂
      exact ⟨tr₂, roll₂, h₂⟩

end Painters
end SystemsProjects
