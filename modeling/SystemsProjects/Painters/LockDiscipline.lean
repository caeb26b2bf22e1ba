import SystemsProjects.Painters.Exclusion

/-!
# Which mutexes an artist holds

An artist takes the mutex of the pixel it has moved to, and frees the mutex of the
pixel it stands on.  The two are the same pixel unless the position has been reset in
between, which the inner `else` does in front of its `unlock`.  And with its 5000
attempts used up an artist still takes mutexes, but has no statement left that frees
one: the second half of the condition of the outer `if` skips the whole body.

As long as neither happens, `lock_discipline_of_run`, an artist in an attempt holds the
mutex of its pixel and no other, and between two turns none.
-/

namespace SystemsProjects
namespace Painters

open Lib

variable {ι : Type*}

/-- Before an `unlock`. -/
def PC.Unlocks : PC → Prop
  | .unlockPainted | .unlockBacktracked => True
  | _ => False

/-- **The property**: an `unlock` names a pixel whose mutex the thread holds, and
between two turns the thread holds none. -/
structure LockDiscipline (w : World ι) : Prop where
  own : ∀ i, (w.artist i).pc.Unlocks → w.lock (w.artist i).position = some i
  released : ∀ i, (w.artist i).pc = .loop → ∀ p, w.lock p ≠ some i

/-- **The condition**: a test against white that fails finds the artist where its turn
began, and a `trylock` that succeeds finds attempts left. -/
structure KeepsLocks (w : World ι) (e : ι × ℕ) : Prop where
  test : (w.artist e.1).pc = .test → w.canvas (w.artist e.1).position ≠ white →
    (w.artist e.1).position = ((w.artist e.1).currentX, (w.artist e.1).currentY)
  loop : (w.artist e.1).pc = .loop → w.lock (move e.2 (w.artist e.1)).position = none →
    (w.artist e.1).actuallyPainted < 5000

instance [DecidableEq ι] (w : World ι) (e : ι × ℕ) : Decidable (KeepsLocks w e) :=
  decidable_of_iff
    (((w.artist e.1).pc = .test → w.canvas (w.artist e.1).position ≠ white →
        (w.artist e.1).position = ((w.artist e.1).currentX, (w.artist e.1).currentY)) ∧
      ((w.artist e.1).pc = .loop → w.lock (move e.2 (w.artist e.1)).position = none →
        (w.artist e.1).actuallyPainted < 5000))
    ⟨fun h => ⟨h.1, h.2⟩, fun h => ⟨h.1, h.2⟩⟩

/-- Threads about to enter their loops, with every mutex free.  The canvas, the
positions and the counters may be any. -/
structure Idle (w : World ι) : Prop where
  pc : ∀ i, (w.artist i).pc = .loop
  lock : ∀ p, w.lock p = none

/-- **The invariant**: in an attempt an artist holds the mutex of its pixel alone, and
outside of one it holds none. -/
def HoldsOwn (w : World ι) : Prop :=
  ∀ i p, w.lock p = some i ↔ (w.artist i).pc ≠ .loop ∧ p = (w.artist i).position

theorem holdsOwn_of_idle {w : World ι} (h : Idle w) : HoldsOwn w := by
  intro i p
  rw [h.lock p, h.pc i]
  simp

theorem HoldsOwn.discipline {w : World ι} (h : HoldsOwn w) : LockDiscipline w where
  own i hi := by
    refine (h i _).mpr ⟨fun hloop => ?_, rfl⟩
    rw [hloop] at hi
    exact hi
  released i hi p hp := ((h i p).mp hp).1 hi

section Step

variable [DecidableEq ι] {w : World ι} {i : ι}

/-- Nothing is taken or freed, and the thread stays in its attempt, or outside. -/
theorem HoldsOwn.stay (h : HoldsOwn w) {w' : World ι} (hlock : w'.lock = w.lock) {a : Painter}
    (hartist : w'.artist = Function.update w.artist i a)
    (hpc : a.pc = .loop ↔ (w.artist i).pc = .loop)
    (hposition : a.pc ≠ .loop → a.position = (w.artist i).position) : HoldsOwn w' := by
  intro j p
  rw [hlock, h j p, hartist]
  by_cases hj : j = i
  · subst hj
    rw [Function.update_self, Ne, Ne, hpc]
    refine and_congr_right fun hne => ?_
    rw [hposition fun hloop => hne (hpc.mp hloop)]
  · rw [Function.update_of_ne hj]

/-- A free mutex is taken by a thread that goes into an attempt on its pixel. -/
theorem HoldsOwn.take (h : HoldsOwn w) {w' : World ι} {a : Painter}
    (hfree : w.lock a.position = none)
    (hlock : w'.lock = Function.update w.lock a.position (some i))
    (hartist : w'.artist = Function.update w.artist i a)
    (hidle : (w.artist i).pc = .loop) (hpc : a.pc ≠ .loop) : HoldsOwn w' := by
  intro j p
  rw [hlock, hartist]
  by_cases hp : p = a.position
  · subst hp
    rw [Function.update_self, Option.some.injEq]
    by_cases hj : j = i
    · subst hj
      simp [hpc]
    · rw [Function.update_of_ne hj, ← h j]
      simp [hfree, Ne.symm hj]
  · rw [Function.update_of_ne hp, h j p]
    by_cases hj : j = i
    · subst hj
      simp [hidle, hp]
    · rw [Function.update_of_ne hj]

/-- The mutex that a thread holds is freed. -/
theorem HoldsOwn.free (h : HoldsOwn w) {w' : World ι} {a : Painter}
    (hlock : w'.lock = Function.update w.lock (w.artist i).position none)
    (hartist : w'.artist = Function.update w.artist i a)
    (hbusy : (w.artist i).pc ≠ .loop) (hpc : a.pc = .loop) : HoldsOwn w' := by
  have hown : w.lock (w.artist i).position = some i := (h i _).mpr ⟨hbusy, rfl⟩
  intro j p
  rw [hlock, hartist]
  by_cases hp : p = (w.artist i).position
  · subst hp
    by_cases hj : j = i
    · subst hj
      simp [hpc]
    · rw [Function.update_of_ne hj, Function.update_self, ← h j, hown]
      simp [Ne.symm hj]
  · rw [Function.update_of_ne hp, h j p]
    by_cases hj : j = i
    · subst hj
      simp [hpc, hp]
    · rw [Function.update_of_ne hj]

/-- **One step under the condition.** -/
theorem HoldsOwn.step (h : HoldsOwn w) {e : ι × ℕ} (hcond : KeepsLocks w e) {w' : World ι}
    (hstep : step w e = some w') : HoldsOwn w' := by
  obtain ⟨i, rand⟩ := e
  cases hpc : (w.artist i).pc with
  | loop =>
    simp only [Painters.step, hpc] at hstep
    split at hstep
    · rw [Option.some.injEq] at hstep
      subst hstep
      rcases trylock_cases w i (move rand (w.artist i)) with ⟨hfree, htry⟩ | ⟨-, htry⟩
      · rw [htry, afterTrylock, if_pos ⟨rfl, hcond.loop hpc hfree⟩]
        exact h.take (a := { move rand (w.artist i) with pc := .test }) hfree rfl rfl hpc
          (by simp)
      · rw [htry, afterTrylock, if_neg (by simp)]
        exact h.stay (i := i) rfl rfl (by simp [nextTurn, hpc]) (by simp [nextTurn])
    · cases hstep
  | test =>
    simp only [Painters.step, hpc, Option.some.injEq] at hstep
    subst hstep
    rw [afterTest]
    split
    · exact h.stay (i := i) rfl rfl (by simp [hpc]) fun _ => rfl
    · rename_i hcolored
      refine h.stay (i := i) rfl rfl (by simp [hpc]) fun _ => ?_
      exact (hcond.test hpc (by simpa using hcolored)).symm
  | storeR =>
    simp only [Painters.step, hpc, Option.some.injEq] at hstep
    subst hstep
    exact h.stay (i := i) rfl rfl (by simp [hpc]) fun _ => rfl
  | storeG =>
    simp only [Painters.step, hpc, Option.some.injEq] at hstep
    subst hstep
    exact h.stay (i := i) rfl rfl (by simp [hpc]) fun _ => rfl
  | storeB =>
    simp only [Painters.step, hpc, Option.some.injEq] at hstep
    subst hstep
    exact h.stay (i := i) rfl rfl (by simp [hpc]) fun _ => rfl
  | unlockPainted =>
    simp only [Painters.step, hpc, Option.some.injEq] at hstep
    subst hstep
    exact h.free (i := i) rfl rfl (by simp [hpc]) rfl
  | unlockBacktracked =>
    simp only [Painters.step, hpc, Option.some.injEq] at hstep
    subst hstep
    exact h.free (i := i) rfl rfl (by simp [hpc]) rfl

/-- **A step against the condition** does break the property. -/
theorem HoldsOwn.breaks (h : HoldsOwn w) {e : ι × ℕ} (hcond : ¬ KeepsLocks w e)
    {w' : World ι} (hstep : Painters.step w e = some w') : ¬ LockDiscipline w' := by
  obtain ⟨i, rand⟩ := e
  intro hdiscipline
  refine hcond ⟨fun hpc hcolored => ?_, fun hpc hfree => ?_⟩
  · -- the reset position is the one whose mutex is about to be freed
    simp only [Painters.step, hpc, Option.some.injEq] at hstep
    subst hstep
    have hown := hdiscipline.own i (by simp [afterTest, hcolored, PC.Unlocks])
    simp only [afterTest, hcolored, setArtist_self, setArtist_lock] at hown
    exact ((h i _).mp hown).2.symm
  · -- the mutex that was free is taken, and the next turn begins
    by_contra hused
    simp only [Painters.step, hpc] at hstep
    split at hstep
    · rw [Option.some.injEq] at hstep
      subst hstep
      rcases trylock_cases w i (move rand (w.artist i)) with ⟨-, htry⟩ | ⟨htaken, -⟩
      · refine hdiscipline.released i ?_ (move rand (w.artist i)).position ?_
        · rw [htry, setArtist_self, afterTrylock, if_neg fun hentered => hused hentered.2]
          rfl
        · rw [htry, setArtist_lock]
          exact Function.update_self _ _ _
      · exact htaken hfree
    · cases hstep

/-- **The lock discipline of a run** whose steps all meet the condition. -/
theorem lock_discipline_of_run (w₀ w : World ι) (tr : List ((ι × ℕ) × Unit))
    (hidle : Idle w₀) (hrun : Run (Guarded KeepsLocks Step) w₀ tr w) : LockDiscipline w := by
  have h : HoldsOwn w :=
    hrun.invariant (P := HoldsOwn) (fun _ _ _ _ hP hs => hP.step hs.1 hs.2)
      (holdsOwn_of_idle hidle)
  exact h.discipline

end Step

/-! ## Three artists -/

/-- The blank canvas, an artist next to the corner and two far from it. -/
def cornerAndMiddle : World (Fin 3) := blankWorld fun
  | 0 => newcomer 1 0 ⟨255, 0, 165⟩
  | 1 => newcomer 10 10 ⟨128, 0, 128⟩
  | 2 => newcomer 12 10 ⟨255, 1, 0⟩

theorem cornerAndMiddle_idle : Idle cornerAndMiddle := ⟨by decide, fun _ => rfl⟩

/-- The first artist paints the corner.  Its next move to the left is clamped to the
pixel it stands on, which is not white any more, so the `unlock` of the inner `else`
names the mutex it has just taken.  The second artist takes a mutex for which the third
one then comes too late. -/
def cornerTwice : List (Fin 3 × ℕ) := turns
  [(1, 4), (0, 0), (0, 0), (1, 0), (0, 0), (2, 0), (0, 0), (0, 0), (0, 0), (0, 0), (0, 0),
   (0, 0)]

theorem lock_discipline_corner : ∃ w : World (Fin 3), Idle cornerAndMiddle ∧
    LockDiscipline w ∧ (w.artist 0).actuallyPainted = 2 ∧ w.canvas (0, 0) = ⟨255, 0, 165⟩ ∧
    w.lock (0, 0) = none ∧ w.lock (11, 10) = some 1 := by
  obtain ⟨w, hw, hcount, hcanvas, hfree, htaken⟩ : ∃ w ∈ cornerTwice.foldlM
      (fun w e => if KeepsLocks w e then step w e else none) cornerAndMiddle,
      (w.artist 0).actuallyPainted = 2 ∧ w.canvas (0, 0) = ⟨255, 0, 165⟩ ∧
        w.lock (0, 0) = none ∧ w.lock (11, 10) = some 1 := by
    decide +kernel
  exact ⟨w, cornerAndMiddle_idle, lock_discipline_of_run cornerAndMiddle w _
    cornerAndMiddle_idle (Run.guarded_of_foldlM hw), hcount, hcanvas, hfree, htaken⟩

/-! ## One artist -/

/-- The blank canvas and an artist on `(10, 10)`. -/
def aloneAt : World (Fin 1) := blankWorld fun _ => newcomer 10 10 ⟨255, 0, 165⟩

/-- A turn that paints the pixel to the right. -/
def rightTurn : List (Fin 1 × ℕ) := [(0, 4), (0, 0), (0, 0), (0, 0), (0, 0), (0, 0)]

/-- **A mutex that is not held is freed.**  The artist paints `(11, 10)`, moves back and
paints `(10, 10)`, tries `(11, 10)` again, and resets its position before the `unlock`:
it holds the mutex of `(11, 10)` and is about to free that of `(10, 10)`. -/
theorem not_lock_discipline : ∃ w : World (Fin 1), Initial aloneAt ∧ Run Step aloneAt
      ((rightTurn ++ [(0, 0), (0, 0), (0, 0), (0, 0), (0, 0), (0, 0), (0, 4), (0, 0)]).map
        fun e => (e, ())) w ∧
    (w.artist 0).pc = .unlockBacktracked ∧ (w.artist 0).position = (10, 10) ∧
    w.lock (10, 10) = none ∧ w.lock (11, 10) = some 0 ∧ ¬ LockDiscipline w := by
  obtain ⟨w, hw, hpc, hposition, hfree, htaken⟩ : ∃ w ∈ (rightTurn ++
      [(0, 0), (0, 0), (0, 0), (0, 0), (0, 0), (0, 0), (0, 4), (0, 0)]).foldlM step aloneAt,
      (w.artist 0).pc = .unlockBacktracked ∧ (w.artist 0).position = (10, 10) ∧
        w.lock (10, 10) = none ∧ w.lock (11, 10) = some 0 := by
    decide +kernel
  have hinit : Initial aloneAt :=
    ⟨fun _ => rfl, fun _ => rfl, rfl, by decide, by decide, by decide, by decide, by decide⟩
  refine ⟨w, hinit, Run.of_foldlM hw, hpc, hposition, hfree, htaken, fun h => ?_⟩
  have hown := h.own 0 (by rw [hpc]; trivial)
  rw [hposition, hfree] at hown
  cases hown

end Painters
end SystemsProjects
