import SystemsProjects.Lib.Exec

/-!
# Artists on a shared canvas: `painters.c`

`Assignment7_ConcurrentArtists/part2/painters.c` runs one thread for each artist.
A thread wanders over a canvas of `256 × 256` pixels, every pixel with a mutex of
its own, and colours the white pixels it finds.

The state of a thread is its artist record together with the locals of `paint`
and a program counter.  A step of the system is one step of one thread, and it
reaches to the next access to shared memory: a `trylock`, a test of a pixel
against white, one colour store, or an `unlock`.  The moves and the tests of
locals in between belong to the thread alone and are part of the step that
follows them.

`lock` records who took a mutex; the code never asks, and an `unlock` frees the
mutex it names whoever took it.  `strokes` is a history variable: which artist
wrote which pixel, newest first.
-/

namespace SystemsProjects
namespace Painters

open Lib

/-- `CANVAS_WIDTH` and `CANVAS_HEIGHT`. -/
def canvasWidth : ℤ := 256
/-- `CANVAS_HEIGHT` -/
def canvasHeight : ℤ := 256

/-- Coordinates of a pixel. -/
abbrev Pixel := ℤ × ℤ

/-- The colour of a pixel or of an artist. -/
structure Color where
  r : ℤ
  g : ℤ
  b : ℤ
  deriving DecidableEq, Repr

/-- The colour of a pixel that nobody has painted. -/
def white : Color := ⟨255, 255, 255⟩

/-- Where a thread is in the body of its loop: before the next access to shared
memory that it will make. -/
inductive PC where
  /-- at the head of the loop, before the `trylock` -/
  | loop
  /-- inside the `if`, before the test against white -/
  | test
  | storeR
  | storeG
  | storeB
  /-- before the `unlock` behind the three stores -/
  | unlockPainted
  /-- before the `unlock` of the inner `else`, the position already reset -/
  | unlockBacktracked
  deriving DecidableEq, Repr

/-- An `artist_t`, the locals of `paint` and the program counter. -/
structure Painter where
  x : ℤ
  y : ℤ
  color : Color
  actuallyPainted : ℤ
  z : ℤ
  currentX : ℤ
  currentY : ℤ
  pc : PC
  deriving DecidableEq, Repr

/-- The pixel an artist stands on. -/
def Painter.position (a : Painter) : Pixel := (a.x, a.y)

/-- `movement[roll]`. -/
def movement (roll : ℕ) : ℤ × ℤ :=
  [(-1, 0), (-1, 1), (0, 1), (1, 1), (1, 0), (1, -1), (0, -1), (-1, -1)].getD roll (0, 0)

/-- The two `if`s that keep a coordinate inside the canvas. -/
def clamp (bound v : ℤ) : ℤ :=
  let v := if v < 0 then 0 else v
  if v > bound - 1 then bound - 1 else v

/-- The first lines of the loop body: remember the position, roll, move, clamp. -/
def move (rand : ℕ) (a : Painter) : Painter :=
  let roll := rand % 8
  { a with
    currentX := a.x
    currentY := a.y
    x := clamp canvasWidth (a.x + (movement roll).1)
    y := clamp canvasHeight (a.y + (movement roll).2) }

/-- Both `else` branches put the artist back. -/
def backtrack (a : Painter) : Painter := { a with x := a.currentX, y := a.currentY }

/-- The end of the loop body. -/
def nextTurn (a : Painter) : Painter := { a with z := a.z + 1, pc := .loop }

/-- Behind the condition of the outer `if`.  The mutex stays taken when the second
half of the condition fails. -/
def afterTrylock (taken : Bool) (a : Painter) : Painter :=
  if taken ∧ a.actuallyPainted < 5000 then { a with pc := .test }
  else nextTurn (backtrack a)

/-- Behind the condition of the inner `if`. -/
def afterTest (isWhite : Bool) (a : Painter) : Painter :=
  if isWhite then { a with pc := .storeR }
  else { backtrack a with pc := .unlockBacktracked }

/-- Behind either `unlock`. -/
def afterUnlock (a : Painter) : Painter :=
  nextTurn { a with actuallyPainted := a.actuallyPainted + 1 }

/-- The shared memory, the threads, and the history of colour stores. -/
structure World (ι : Type*) where
  canvas : Pixel → Color
  lock : Pixel → Option ι
  artist : ι → Painter
  strokes : List (ι × Pixel)

variable {ι : Type*} [DecidableEq ι]

/-- Thread `i` goes on as `a`. -/
def World.setArtist (w : World ι) (i : ι) (a : Painter) : World ι :=
  { w with artist := Function.update w.artist i a }

/-- Thread `i` stores one component of its colour where it stands. -/
def World.store (w : World ι) (i : ι) (paint : Color → Color → Color) : World ι :=
  let a := w.artist i
  { w with
    canvas := Function.update w.canvas a.position (paint a.color (w.canvas a.position))
    strokes := (i, a.position) :: w.strokes }

/-- `pthread_mutex_unlock`: the named mutex becomes free. -/
def World.unlock (w : World ι) (p : Pixel) : World ι :=
  { w with lock := Function.update w.lock p none }

/-- `pthread_mutex_trylock` of the pixel that thread `i` has moved to. -/
def World.trylock (w : World ι) (i : ι) (a : Painter) : World ι :=
  match w.lock a.position with
  | none =>
    { w with lock := Function.update w.lock a.position (some i) }.setArtist i
      (afterTrylock true a)
  | some _ => w.setArtist i (afterTrylock false a)

/-- **One step of thread `i`**, with `rand` the value that `rand()` returns if it
is called.  A thread that has left its loop makes no step. -/
def step (w : World ι) (e : ι × ℕ) : Option (World ι) :=
  let (i, rand) := e
  let a := w.artist i
  match a.pc with
  | .loop => if a.z < 20000 then some (w.trylock i (move rand a)) else none
  | .test => some (w.setArtist i (afterTest (w.canvas a.position = white) a))
  | .storeR =>
      some ((w.store i fun c old => { old with r := c.r }).setArtist i
        { a with pc := .storeG })
  | .storeG =>
      some ((w.store i fun c old => { old with g := c.g }).setArtist i
        { a with pc := .storeB })
  | .storeB =>
      some ((w.store i fun c old => { old with b := c.b }).setArtist i
        { a with pc := .unlockPainted })
  | .unlockPainted => some ((w.unlock a.position).setArtist i (afterUnlock a))
  | .unlockBacktracked => some ((w.unlock a.position).setArtist i (afterUnlock a))

/-- The step relation of the threads. -/
def Step (w : World ι) (e : ι × ℕ) (_ : Unit) (w' : World ι) : Prop := step w e = some w'

/-- The canvas after `initCanvas`, and threads about to enter their loops at
positions on the canvas, none of them with white paint. -/
structure Initial (w : World ι) : Prop where
  canvas : ∀ p, w.canvas p = white
  lock : ∀ p, w.lock p = none
  strokes : w.strokes = []
  pc : ∀ i, (w.artist i).pc = .loop
  z : ∀ i, (w.artist i).z = 0
  painted : ∀ i, (w.artist i).actuallyPainted = 0
  inside : ∀ i, 0 ≤ (w.artist i).x ∧ (w.artist i).x < canvasWidth ∧
    0 ≤ (w.artist i).y ∧ (w.artist i).y < canvasHeight
  color : ∀ i, (w.artist i).color ≠ white

/-! ## The thread of a step -/

@[simp] theorem setArtist_canvas (w : World ι) (i : ι) (a : Painter) :
    (w.setArtist i a).canvas = w.canvas := rfl

@[simp] theorem setArtist_lock (w : World ι) (i : ι) (a : Painter) :
    (w.setArtist i a).lock = w.lock := rfl

@[simp] theorem setArtist_strokes (w : World ι) (i : ι) (a : Painter) :
    (w.setArtist i a).strokes = w.strokes := rfl

@[simp] theorem setArtist_self (w : World ι) (i : ι) (a : Painter) :
    (w.setArtist i a).artist i = a := by
  simp [World.setArtist]

theorem setArtist_of_ne (w : World ι) {i j : ι} (h : j ≠ i) (a : Painter) :
    (w.setArtist i a).artist j = w.artist j := by
  simp [World.setArtist, h]

/-- What holds of all artists after one of them has changed. -/
theorem forall_setArtist {P : ι → Painter → Prop} {w : World ι} {i : ι} {a : Painter}
    (hself : P i a) (hother : ∀ j, j ≠ i → P j (w.artist j)) (j : ι) :
    P j ((w.setArtist i a).artist j) := by
  by_cases hji : j = i
  · subst hji
    rw [setArtist_self]
    exact hself
  · rw [setArtist_of_ne w hji]
    exact hother j hji

/-- A successful `trylock` takes a mutex that was free. -/
theorem trylock_cases (w : World ι) (i : ι) (a : Painter) :
    (w.lock a.position = none ∧ w.trylock i a =
      { w with lock := Function.update w.lock a.position (some i) }.setArtist i
        (afterTrylock true a)) ∨
    (w.lock a.position ≠ none ∧ w.trylock i a = w.setArtist i (afterTrylock false a)) := by
  rcases h : w.lock a.position with _ | j
  · exact Or.inl ⟨rfl, by rw [World.trylock, h]⟩
  · exact Or.inr ⟨Option.some_ne_none j, by rw [World.trylock, h]⟩

/-- The outer `if` enters the critical section or starts the next turn. -/
theorem afterTrylock_cases (taken : Bool) (a : Painter) :
    (taken = true ∧ afterTrylock taken a = { a with pc := .test }) ∨
      afterTrylock taken a = nextTurn (backtrack a) := by
  rw [afterTrylock]
  split
  · rename_i h
    exact Or.inl ⟨h.1, rfl⟩
  · exact Or.inr rfl

@[simp] theorem move_color (rand : ℕ) (a : Painter) : (move rand a).color = a.color := rfl

@[simp] theorem afterTrylock_color (taken : Bool) (a : Painter) :
    (afterTrylock taken a).color = a.color := by
  rcases afterTrylock_cases taken a with ⟨-, h⟩ | h
  · rw [h]
  · rw [h]
    rfl

@[simp] theorem afterTest_color (b : Bool) (a : Painter) :
    (afterTest b a).color = a.color := by
  rw [afterTest]
  split <;> rfl

@[simp] theorem afterUnlock_color (a : Painter) : (afterUnlock a).color = a.color := rfl

end Painters
end SystemsProjects
