import SystemsProjects.Painters.Canvas

/-!
# When no artist paints over another

The lock is taken on the pixel an artist has moved to.  The inner `else` of
`paint` resets the position *before* it unlocks, so it unlocks the pixel the
artist came from, and that mutex may be held by another artist at work on that
pixel.

* `not_exclusive` is a schedule of three artists in which this happens and two of
  them colour one pixel.
* `exclusive_of_run` says that this is the only way: in every run in which no
  backtracking artist unlocks a pixel another artist is working on, no pixel is
  ever written by two artists, and every finished pixel has the colour of the one
  that wrote it.

The invariant `Exclusion` says what the mutexes would have guaranteed: the pixel
of a working artist is locked, and no two working artists share a pixel.  The
step lemma splits the steps in two kinds, those that leave the picture alone
(`Exclusion.quiet`) and the colour stores (`Exclusion.stroke`).
-/

namespace SystemsProjects
namespace Painters

open Lib

variable {ι : Type*} [DecidableEq ι]

/-- Between a successful `trylock` and the `unlock` behind the stores. -/
def PC.Working : PC → Prop
  | .test | .storeR | .storeG | .storeB | .unlockPainted => True
  | .loop | .unlockBacktracked => False

/-- Between the first and the last colour store. -/
def PC.MidStroke : PC → Prop
  | .storeG | .storeB => True
  | _ => False

theorem PC.MidStroke.working {pc : PC} (h : pc.MidStroke) : pc.Working := by
  cases pc with
  | storeG => trivial
  | storeB => trivial
  | _ => exact absurd h id

instance : DecidablePred PC.Working
  | .test | .storeR | .storeG | .storeB | .unlockPainted => isTrue trivial
  | .loop | .unlockBacktracked => isFalse id

/-- Artist `i` is at work on the pixel `p`. -/
def WorksOn (w : World ι) (i : ι) (p : Pixel) : Prop :=
  (w.artist i).pc.Working ∧ (w.artist i).position = p

instance (w : World ι) (i : ι) (p : Pixel) : Decidable (WorksOn w i p) :=
  inferInstanceAs (Decidable (_ ∧ _))

/-- **The condition**: the step is not the `unlock` of the inner `else` on a pixel
that another artist is working on. -/
def NoForeignUnlock (w : World ι) (e : ι × ℕ) : Prop :=
  (w.artist e.1).pc = .unlockBacktracked →
    ∀ j, j ≠ e.1 → ¬ WorksOn w j (w.artist e.1).position

instance [Fintype ι] (w : World ι) (e : ι × ℕ) : Decidable (NoForeignUnlock w e) :=
  inferInstanceAs (Decidable (_ → _))

/-- No pixel has been written by two artists. -/
def Exclusive (w : World ι) : Prop :=
  ∀ i j p, (i, p) ∈ w.strokes → (j, p) ∈ w.strokes → i = j

/-- Every non-white pixel at which no artist is between its stores has been
written by one artist and carries its colour. -/
def FinishedPixels (w : World ι) : Prop :=
  ∀ p, w.canvas p ≠ white →
    (∀ i, (w.artist i).position = p → ¬ (w.artist i).pc.MidStroke) →
    ∃ i, (i, p) ∈ w.strokes ∧ (∀ j, (j, p) ∈ w.strokes → j = i) ∧
      w.canvas p = (w.artist i).color

/-! ## The invariant -/

/-- What holds as long as no mutex is freed under an artist at work. -/
structure Exclusion (w : World ι) : Prop where
  color : ∀ i, (w.artist i).color ≠ white
  locked : ∀ i, (w.artist i).pc.Working → w.lock (w.artist i).position ≠ none
  alone : ∀ i j, (w.artist i).pc.Working → (w.artist j).pc.Working →
    (w.artist i).position = (w.artist j).position → i = j
  once : Exclusive w
  blank : ∀ p, (∀ j, (j, p) ∉ w.strokes) → w.canvas p = white
  fresh : ∀ i, (w.artist i).pc = .storeR → ∀ j, (j, (w.artist i).position) ∉ w.strokes
  begun : ∀ i, (w.artist i).pc.MidStroke → (i, (w.artist i).position) ∈ w.strokes
  red : ∀ i, (w.artist i).pc.MidStroke →
    (w.canvas (w.artist i).position).r = (w.artist i).color.r
  green : ∀ i, (w.artist i).pc = .storeB →
    (w.canvas (w.artist i).position).g = (w.artist i).color.g
  done : ∀ i p, (i, p) ∈ w.strokes →
    ¬ ((w.artist i).position = p ∧ (w.artist i).pc.MidStroke) →
    w.canvas p = (w.artist i).color

omit [DecidableEq ι] in
theorem exclusion_of_initial {w : World ι} (h : Initial w) : Exclusion w := by
  have hidle : ∀ i, ¬ (w.artist i).pc.Working := by
    intro i
    rw [h.pc i]
    exact id
  have hmid : ∀ i, ¬ (w.artist i).pc.MidStroke := by
    intro i
    rw [h.pc i]
    exact id
  have hnone : ∀ i p, (i, p) ∉ w.strokes := by
    intro i p
    rw [h.strokes]
    exact List.not_mem_nil
  exact
    { color := h.color
      locked := fun i hi => absurd hi (hidle i)
      alone := fun i _ hi => absurd hi (hidle i)
      once := fun i _ p hi => absurd hi (hnone i p)
      blank := fun p _ => h.canvas p
      fresh := fun i _ j => hnone j _
      begun := fun i hi => absurd hi (hmid i)
      red := fun i hi => absurd hi (hmid i)
      green := fun i hi => by rw [h.pc i] at hi; cases hi
      done := fun i p hi => absurd hi (hnone i p) }

variable {w : World ι} {i : ι}

/-- **A step that leaves the picture alone.**  The acting artist is between two
strokes before and after; what has to be shown is about the mutexes only, and
about the pixel when the artist is about to begin. -/
theorem Exclusion.quiet (h : Exclusion w) {a : Painter} {lock' : Pixel → Option ι}
    (hold : ¬ (w.artist i).pc.MidStroke) (hnew : ¬ a.pc.MidStroke)
    (hcolor : a.color = (w.artist i).color)
    (hmine : a.pc.Working → lock' a.position ≠ none)
    (hothers : ∀ j, j ≠ i → (w.artist j).pc.Working →
      lock' (w.artist j).position ≠ none)
    (halone : a.pc.Working → ∀ j, j ≠ i → ¬ WorksOn w j a.position)
    (hfresh : a.pc = .storeR → ∀ j, (j, a.position) ∉ w.strokes) :
    Exclusion ({ w with lock := lock' }.setArtist i a) := by
  refine
    { color := ?_, locked := ?_, alone := ?_, once := h.once, blank := h.blank, fresh := ?_,
      begun := ?_, red := ?_, green := ?_, done := fun j p => ?_ }
  · exact forall_setArtist (P := fun _ b => b.color ≠ white) (hcolor ▸ h.color i)
      fun j _ => h.color j
  · exact forall_setArtist (P := fun _ b => b.pc.Working → lock' b.position ≠ none) hmine hothers
  · intro j k
    revert j
    refine forall_setArtist (P := fun j b => b.pc.Working → _ → b.position = _ → j = k) ?_
      fun j hji => ?_
    · exact forall_setArtist (P := fun k b => a.pc.Working → b.pc.Working →
          a.position = b.position → i = k) (fun _ _ _ => rfl)
        (fun k hki hi hk hik => absurd ⟨hk, hik.symm⟩ (halone hi k hki)) k
    · exact forall_setArtist (P := fun k b => (w.artist j).pc.Working → b.pc.Working →
          (w.artist j).position = b.position → j = k)
        (fun hj hi hji' => absurd ⟨hj, hji'⟩ (halone hi j hji)) (fun k _ => h.alone j k) k
  · exact forall_setArtist (P := fun _ b => b.pc = .storeR → ∀ j, (j, b.position) ∉ w.strokes)
      hfresh fun j _ => h.fresh j
  · exact forall_setArtist (P := fun j b => b.pc.MidStroke → (j, b.position) ∈ w.strokes)
      (fun hmid => absurd hmid hnew) fun j _ => h.begun j
  · exact forall_setArtist (P := fun _ b => b.pc.MidStroke → (w.canvas b.position).r = b.color.r)
      (fun hmid => absurd hmid hnew) fun j _ => h.red j
  · exact forall_setArtist (P := fun _ b => b.pc = .storeB → (w.canvas b.position).g = b.color.g)
      (fun hpc => absurd (by rw [hpc]; trivial) hnew) fun j _ => h.green j
  · refine forall_setArtist (P := fun j b => (j, p) ∈ w.strokes →
      ¬ (b.position = p ∧ b.pc.MidStroke) → w.canvas p = b.color) (fun hp _ => ?_)
      (fun j _ => h.done j p) j
    rw [hcolor]
    exact h.done i p hp fun hmid => hold hmid.2

/-- **A step after which the artist holds no pixel.** -/
theorem Exclusion.rest (h : Exclusion w) {a : Painter} {lock' : Pixel → Option ι}
    (hold : ¬ (w.artist i).pc.MidStroke) (hcolor : a.color = (w.artist i).color)
    (hnew : ¬ a.pc.Working)
    (hothers : ∀ j, j ≠ i → (w.artist j).pc.Working →
      lock' (w.artist j).position ≠ none) :
    Exclusion ({ w with lock := lock' }.setArtist i a) := by
  refine h.quiet hold (fun hm => hnew ?_) hcolor (fun hw => absurd hw hnew) hothers
    (fun hw => absurd hw hnew) (fun hpc => absurd (by rw [hpc]; trivial) hnew)
  exact hm.working

/-- **A colour store.**  The artist is at work on its pixel before and after, and
nobody else has written that pixel. -/
theorem Exclusion.stroke (h : Exclusion w) {c : Color} (next : PC)
    (hold : (w.artist i).pc.Working) (hnew : next.Working) (hnext : next ≠ .storeR)
    (hmine : ∀ j, (j, (w.artist i).position) ∈ w.strokes → j = i)
    (hred : next.MidStroke → c.r = (w.artist i).color.r)
    (hgreen : next = .storeB → c.g = (w.artist i).color.g)
    (hdone : ¬ next.MidStroke → c = (w.artist i).color) :
    Exclusion (World.setArtist
      { w with
        canvas := Function.update w.canvas (w.artist i).position c
        strokes := (i, (w.artist i).position) :: w.strokes } i
      { w.artist i with pc := next }) := by
  set p₀ := (w.artist i).position with hp₀
  set w' := World.setArtist
      { w with
        canvas := Function.update w.canvas p₀ c
        strokes := (i, p₀) :: w.strokes } i { w.artist i with pc := next } with hw'
  have hself : w'.artist i = { w.artist i with pc := next } := setArtist_self _ i _
  have hother : ∀ j, j ≠ i → w'.artist j = w.artist j :=
    fun j hj => setArtist_of_ne _ hj _
  have hposition : ∀ j, (w'.artist j).position = (w.artist j).position :=
    forall_setArtist (P := fun j b => b.position = (w.artist j).position) rfl fun _ _ => rfl
  have hcolor : ∀ j, (w'.artist j).color = (w.artist j).color :=
    forall_setArtist (P := fun j b => b.color = (w.artist j).color) rfl fun _ _ => rfl
  have hworking : ∀ j, (w'.artist j).pc.Working ↔ (w.artist j).pc.Working :=
    forall_setArtist (P := fun j b => b.pc.Working ↔ (w.artist j).pc.Working)
      (iff_of_true hnew hold) fun _ _ => Iff.rfl
  -- a working artist other than `i` stands elsewhere
  have haway : ∀ j, j ≠ i → (w.artist j).pc.Working → (w.artist j).position ≠ p₀ :=
    fun j hji hj heq => hji (h.alone j i hj hold heq)
  have hmem : ∀ {j p}, (j, p) ∈ w'.strokes ↔ (j = i ∧ p = p₀) ∨ (j, p) ∈ w.strokes := by
    intro j p
    show (j, p) ∈ (i, p₀) :: w.strokes ↔ _
    rw [List.mem_cons, Prod.mk.injEq]
  have hcanvas₀ : w'.canvas p₀ = c := Function.update_self ..
  have hcanvas : ∀ p, p ≠ p₀ → w'.canvas p = w.canvas p :=
    fun p hp => Function.update_of_ne hp ..
  refine
    { color := fun j => by rw [hcolor]; exact h.color j, locked := fun j hj => ?_,
      alone := fun j k hj hk hjk => ?_, once := fun j k p hj hk => ?_,
      blank := fun p hp => ?_, fresh := ?_, begun := ?_, red := ?_, green := ?_,
      done := fun j p hp hmid => ?_ }
  · rw [hposition]
    exact h.locked j ((hworking j).mp hj)
  · rw [hposition, hposition] at hjk
    exact h.alone j k ((hworking j).mp hj) ((hworking k).mp hk) hjk
  · rcases hmem.mp hj with ⟨hji, hp⟩ | hj'
    · rcases hmem.mp hk with ⟨hki, -⟩ | hk'
      · rw [hji, hki]
      · rw [hji, hmine k (hp ▸ hk')]
    · rcases hmem.mp hk with ⟨hki, hp⟩ | hk'
      · rw [hki, hmine j (hp ▸ hj')]
      · exact h.once j k p hj' hk'
  · have hne : p ≠ p₀ := fun heq => hp i (hmem.mpr (Or.inl ⟨rfl, heq⟩))
    rw [hcanvas p hne]
    exact h.blank p fun j hj => hp j (hmem.mpr (Or.inr hj))
  · refine forall_setArtist (P := fun _ b => b.pc = .storeR → ∀ k, (k, b.position) ∉ w'.strokes)
      (fun hpc => absurd hpc hnext) fun j hji hj k hk => ?_
    rcases hmem.mp hk with ⟨-, heq⟩ | hk
    · exact haway j hji (by rw [hj]; trivial) heq
    · exact h.fresh j hj k hk
  · exact forall_setArtist (P := fun j b => b.pc.MidStroke → (j, b.position) ∈ w'.strokes)
      (fun _ => hmem.mpr (Or.inl ⟨rfl, rfl⟩)) fun j _ hj => hmem.mpr (Or.inr (h.begun j hj))
  · refine forall_setArtist (P := fun _ b => b.pc.MidStroke →
      (w'.canvas b.position).r = b.color.r) (fun hmid => ?_) fun j hji hj => ?_
    · exact (congrArg Color.r hcanvas₀).trans (hred hmid)
    · rw [hcanvas _ (haway j hji hj.working)]
      exact h.red j hj
  · refine forall_setArtist (P := fun _ b => b.pc = .storeB →
      (w'.canvas b.position).g = b.color.g) (fun hpc => ?_) fun j hji hj => ?_
    · exact (congrArg Color.g hcanvas₀).trans (hgreen hpc)
    · rw [hcanvas _ (haway j hji (by rw [hj]; trivial))]
      exact h.green j hj
  · rw [hposition] at hmid
    rw [hcolor]
    by_cases hpp : p = p₀
    · -- the pixel is ours: the stroke is complete, or there is nothing to show
      have hji : j = i := by
        rcases hmem.mp hp with ⟨hji, -⟩ | hp
        · exact hji
        · exact hmine j (hpp ▸ hp)
      rw [hji, hself] at hmid
      rw [hpp, hji, hcanvas₀]
      exact hdone fun hm => hmid ⟨hpp.symm, hm⟩
    · rw [hcanvas p hpp]
      have hp' : (j, p) ∈ w.strokes := by
        rcases hmem.mp hp with ⟨-, heq⟩ | hp
        · exact absurd heq hpp
        · exact hp
      refine h.done j p hp' fun hm => ?_
      by_cases hji : j = i
      · exact hpp (by rw [← hm.1, hji])
      · rw [hother j hji] at hmid
        exact hmid hm

/-- **The `trylock`** and the outer `if`. -/
theorem Exclusion.trylock (h : Exclusion w) (hidle : ¬ (w.artist i).pc.MidStroke) (rand : ℕ) :
    Exclusion (w.trylock i (move rand (w.artist i))) := by
  rcases trylock_cases w i (move rand (w.artist i)) with ⟨hfree, htry⟩ | ⟨-, htry⟩
  · -- the mutex was free, so nobody works on that pixel
    rw [htry]
    have hnobody : ∀ j, ¬ WorksOn w j (move rand (w.artist i)).position :=
      fun j hj => h.locked j hj.1 (by rw [hj.2]; exact hfree)
    have hothers : ∀ j, j ≠ i → (w.artist j).pc.Working →
        Function.update w.lock (move rand (w.artist i)).position (some i)
          (w.artist j).position ≠ none := by
      intro j _ hj
      rw [Function.update_of_ne fun heq => hnobody j ⟨hj, heq⟩]
      exact h.locked j hj
    rcases afterTrylock_cases true (move rand (w.artist i)) with ⟨-, ha⟩ | ha
    · rw [ha]
      refine h.quiet hidle id rfl (fun _ => ?_) hothers (fun _ j _ => hnobody j)
        (fun hc => nomatch hc)
      show Function.update w.lock (move rand (w.artist i)).position (some i)
        (move rand (w.artist i)).position ≠ none
      rw [Function.update_self]
      exact Option.some_ne_none i
    · rw [ha]
      exact h.rest hidle rfl id hothers
  · rw [htry]
    rcases afterTrylock_cases false (move rand (w.artist i)) with ⟨hc, -⟩ | ha
    · cases hc
    · rw [ha]
      exact h.rest hidle rfl id fun j _ => h.locked j

/-- **The inner `if`**: a white pixel that nobody else is painting has not been written. -/
theorem Exclusion.test (h : Exclusion w) (hpc : (w.artist i).pc = .test) :
    Exclusion (w.setArtist i
      (afterTest (w.canvas (w.artist i).position = white) (w.artist i))) := by
  have hidle : ¬ (w.artist i).pc.MidStroke := by rw [hpc]; exact id
  have hworking : (w.artist i).pc.Working := by rw [hpc]; trivial
  by_cases hwhite : w.canvas (w.artist i).position = white
  · have hblank : ∀ j, (j, (w.artist i).position) ∉ w.strokes := by
      intro j hj
      by_cases hmid : (w.artist j).position = (w.artist i).position ∧
          (w.artist j).pc.MidStroke
      · have hji := h.alone j i hmid.2.working hworking hmid.1
        rw [hji] at hmid
        exact hidle hmid.2
      · exact h.color j ((h.done j _ hj hmid).symm.trans hwhite)
    rw [decide_eq_true hwhite]
    exact h.quiet hidle id rfl (fun _ => h.locked i hworking) (fun j _ => h.locked j)
      (fun _ j hji hj => hji (h.alone j i hj.1 hworking hj.2)) (fun _ => hblank)
  · rw [decide_eq_false hwhite]
    exact h.rest hidle rfl id fun j _ => h.locked j

/-- **One step under the condition.** -/
theorem Exclusion.step (h : Exclusion w) {e : ι × ℕ} (hcond : NoForeignUnlock w e)
    {w' : World ι} (hstep : step w e = some w') : Exclusion w' := by
  obtain ⟨i, rand⟩ := e
  rw [Painters.step] at hstep
  cases hpc : (w.artist i).pc with
  | loop =>
    simp only [hpc] at hstep
    split at hstep
    · rw [← Option.some.inj hstep]
      exact h.trylock (by rw [hpc]; exact id) rand
    · cases hstep
  | test =>
    simp only [hpc] at hstep
    rw [← Option.some.inj hstep]
    exact h.test hpc
  | storeR =>
    simp only [hpc] at hstep
    rw [← Option.some.inj hstep]
    refine h.stroke .storeG (by rw [hpc]; trivial) trivial (by decide)
      (fun j hj => absurd hj (h.fresh i hpc j)) (fun _ => rfl) (fun hc => nomatch hc)
      (fun hc => absurd trivial hc)
  | storeG =>
    have hmid : (w.artist i).pc.MidStroke := by rw [hpc]; trivial
    simp only [hpc] at hstep
    rw [← Option.some.inj hstep]
    exact h.stroke .storeB hmid.working trivial (by decide)
      (fun j hj => h.once j i _ hj (h.begun i hmid)) (fun _ => h.red i hmid)
      (fun _ => rfl) (fun hc => absurd trivial hc)
  | storeB =>
    have hmid : (w.artist i).pc.MidStroke := by rw [hpc]; trivial
    have hred := h.red i hmid
    have hgreen := h.green i hpc
    simp only [hpc] at hstep
    rw [← Option.some.inj hstep]
    refine h.stroke .unlockPainted hmid.working trivial (by decide)
      (fun j hj => h.once j i _ hj (h.begun i hmid)) (fun hc => absurd hc id)
      (fun hc => nomatch hc) (fun _ => ?_)
    show (⟨(w.canvas (w.artist i).position).r, (w.canvas (w.artist i).position).g,
      (w.artist i).color.b⟩ : Color) = (w.artist i).color
    rw [hred, hgreen]
  | unlockPainted =>
    have hidle : ¬ (w.artist i).pc.MidStroke := by rw [hpc]; exact id
    have hworking : (w.artist i).pc.Working := by rw [hpc]; trivial
    simp only [hpc] at hstep
    rw [← Option.some.inj hstep]
    refine h.rest hidle rfl id fun j hji hj => ?_
    rw [Function.update_of_ne fun heq => hji (h.alone j i hj hworking heq)]
    exact h.locked j hj
  | unlockBacktracked =>
    -- here, and only here, the mutex may belong to somebody else
    have hidle : ¬ (w.artist i).pc.MidStroke := by rw [hpc]; exact id
    simp only [hpc] at hstep
    rw [← Option.some.inj hstep]
    refine h.rest hidle rfl id fun j hji hj => ?_
    rw [Function.update_of_ne fun heq => hcond hpc j hji ⟨hj, heq⟩]
    exact h.locked j hj

/-! ## Runs -/

omit [DecidableEq ι] in
/-- The invariant gives the colours of the finished pixels. -/
theorem Exclusion.finishedPixels (h : Exclusion w) : FinishedPixels w := by
  intro p hp hquiet
  by_cases hblank : ∀ j, (j, p) ∉ w.strokes
  · exact absurd (h.blank p hblank) hp
  · push Not at hblank
    obtain ⟨i, hi⟩ := hblank
    exact ⟨i, hi, fun j hj => h.once j i p hj hi,
      h.done i p hi fun hm => hquiet i hm.1 hm.2⟩

/-- **No overpainting, under the condition.**  In every run from the initial
canvas, for any number of artists and any schedule, whose steps never unlock by
backtracking a pixel that another artist is working on, no pixel is written by two
artists and every finished pixel carries the colour of the one that wrote it. -/
theorem exclusive_of_run (w₀ w : World ι) (tr : List ((ι × ℕ) × Unit))
    (hinit : Initial w₀) (hrun : Run (Guarded NoForeignUnlock Step) w₀ tr w) :
    Exclusive w ∧ FinishedPixels w := by
  have h : Exclusion w :=
    hrun.invariant (P := Exclusion) (fun _ _ _ _ hP hs => hP.step hs.1 hs.2)
      (exclusion_of_initial hinit)
  exact ⟨h.once, h.finishedPixels⟩

/-! ## Three artists apart, and in each other's way -/

/-- An artist before its first turn. -/
def newcomer (x y : ℤ) (color : Color) : Painter :=
  { x := x, y := y, color := color, actuallyPainted := 0, z := 0, currentX := 0,
    currentY := 0, pc := .loop }

/-- The blank canvas with the given artists around it. -/
def blankWorld (artist : ι → Painter) : World ι :=
  { canvas := fun _ => white, lock := fun _ => none, artist := artist, strokes := [] }

/-- Two artists with one pixel between them, and one below. -/
def neighbours : Fin 3 → Painter
  | 0 => newcomer 10 10 ⟨255, 0, 165⟩
  | 1 => newcomer 12 10 ⟨128, 0, 128⟩
  | 2 => newcomer 12 13 ⟨255, 1, 0⟩

theorem initial_neighbours : Initial (blankWorld neighbours) where
  canvas _ := rfl
  lock _ := rfl
  strokes := rfl
  pc := by decide
  z := by decide
  painted := by decide
  inside := by decide
  color := by decide

/-- A schedule of three artists: whose turn it is, and what `rand` or the lock answers. -/
def turns (l : List (ℕ × ℕ)) : List (Fin 3 × ℕ) := l.map fun e => (Fin.ofNat 3 e.1, e.2)

/-- The first artist paints `(11, 10)`, and both others are at work, on `(11, 11)` and
`(12, 12)`, when the second one tries `(11, 10)`, goes back to `(12, 10)` and unlocks it.
The second artist then fails to lock `(11, 11)` and paints `(12, 11)`, while the first
one finishes. -/
def sideBySide : List (Fin 3 × ℕ) := turns
  [(0, 4), (0, 0), (0, 0), (0, 0), (0, 0), (0, 0), (0, 2), (0, 0), (0, 0), (2, 6), (2, 0),
   (1, 0), (1, 0), (1, 0), (1, 1), (1, 2), (1, 0), (0, 0), (1, 0), (0, 0), (1, 0), (2, 0),
   (0, 0), (1, 0), (1, 0)]

theorem exclusive_of_run_neighbours : ∃ w : World (Fin 3), Exclusive w ∧ FinishedPixels w ∧
    w.canvas (11, 10) = ⟨255, 0, 165⟩ ∧ w.canvas (11, 11) = ⟨255, 0, 165⟩ ∧
    w.canvas (12, 11) = ⟨128, 0, 128⟩ ∧ w.lock (11, 10) = some 1 := by
  obtain ⟨w, hw, hright, hbelow, hother, hheld⟩ : ∃ w ∈ sideBySide.foldlM
      (fun w e => if NoForeignUnlock w e then step w e else none) (blankWorld neighbours),
      w.canvas (11, 10) = ⟨255, 0, 165⟩ ∧ w.canvas (11, 11) = ⟨255, 0, 165⟩ ∧
        w.canvas (12, 11) = ⟨128, 0, 128⟩ ∧ w.lock (11, 10) = some 1 := by
    decide +kernel
  obtain ⟨honce, hfinished⟩ :=
    exclusive_of_run _ w _ initial_neighbours (Run.guarded_of_foldlM hw)
  exact ⟨w, honce, hfinished, hright, hbelow, hother, hheld⟩

/-- The artists of the example: the first one stands where the other two will
meet. -/
def threeArtists : Fin 3 → Painter
  | 0 => newcomer 10 10 ⟨255, 0, 165⟩
  | 1 => newcomer 11 9 ⟨128, 0, 128⟩
  | 2 => newcomer 9 10 ⟨255, 1, 0⟩

/-- The second artist paints `(11, 10)`, moves to `(10, 10)` and finds it white.  The
first one tries `(11, 10)`, goes back to `(10, 10)` and unlocks it.  The third one
enters `(10, 10)`, and the two colour it together. -/
def meeting : List (Fin 3 × ℕ) :=
  [(1, 2), (1, 0), (1, 0), (1, 0), (1, 0), (1, 0), (1, 0), (1, 0),
   (0, 4), (0, 0), (0, 0), (2, 4), (2, 0),
   (1, 0), (2, 0), (2, 0), (1, 0), (1, 0), (2, 0), (1, 0), (2, 0)]

theorem initial_threeArtists : Initial (blankWorld threeArtists) where
  canvas _ := rfl
  lock _ := rfl
  strokes := rfl
  pc := by decide
  z := by decide
  painted := by decide
  inside := by decide
  color := by decide

/-- **Two artists on one pixel.**  The mutex of `(10, 10)` is freed under the second
artist, the third one takes it, and the finished pixel has a colour of neither. -/
theorem not_exclusive :
    ∃ w, Initial (blankWorld threeArtists) ∧
      Run Step (blankWorld threeArtists) (meeting.map fun e => (e, ())) w ∧
      ¬ Exclusive w ∧ ¬ FinishedPixels w := by
  obtain ⟨w, hw, hsecond, hthird, hcolored, hall⟩ :
      ∃ w ∈ meeting.foldlM step (blankWorld threeArtists),
        (1, (10, 10)) ∈ w.strokes ∧ (2, (10, 10)) ∈ w.strokes ∧
        w.canvas (10, 10) ≠ white ∧
        ∀ i, (w.artist i).pc = .loop ∧ w.canvas (10, 10) ≠ (w.artist i).color := by
    decide +kernel
  refine ⟨w, initial_threeArtists, Run.of_foldlM hw, fun honce => ?_, fun hfinished => ?_⟩
  · exact absurd (honce 1 2 (10, 10) hsecond hthird) (by decide)
  · have hidle : ∀ i, (w.artist i).position = (10, 10) → ¬ (w.artist i).pc.MidStroke := by
      intro i _
      rw [(hall i).1]
      exact id
    obtain ⟨i, -, -, hi⟩ := hfinished (10, 10) hcolored hidle
    exact (hall i).2 hi

end Painters
end SystemsProjects
