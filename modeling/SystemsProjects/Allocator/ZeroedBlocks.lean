import SystemsProjects.Allocator.BlockStore

/-!
# Zeroed blocks

What `calloc` promises, said for a byte memory before and after the call and for the
pointers that are live before it.  A call for `n` bytes returns NULL and writes
nothing, or it returns the payload of a taken block that is new to the program, whose
first `n` bytes are there and are zero, and the payloads that are live keep all their bytes
(`Zeroed`).

Both allocators get a block and then call `memset`.  What they have to show is that the block
can be accessed and shares no byte with a live payload; `zeroed_cleared` does the rest.
-/

namespace SystemsProjects
namespace Allocator

open Lib BlockStore

variable {m m' : Memory} {live : List (ℕ × ℕ)} {b c q n : ℕ}

/-! ## The promise -/

/-- **A zeroed block** of `n` bytes at least, and nothing else.  The bytes of a payload are
those of the size in the header. -/
structure Zeroed (live : List (ℕ × ℕ)) (m m' : Memory) (q n : ℕ) : Prop where
  /-- nobody else has the pointer -/
  new : q ∉ live.map Prod.fst
  taken : get m' .free (headerOf q) = 0
  large : n ≤ get m' .size (headerOf q)
  mapped : m'.Accessible q n
  zero : ∀ x, q ≤ x → x < q + n → m'.bytes x = 0
  others : ∀ e ∈ live, ∀ x, e.1 ≤ x → x < e.1 + get m .size (headerOf e.1) →
    m'.bytes x = m.bytes x

/-- **What `calloc` promises.** -/
def CallocPromise (live : List (ℕ × ℕ)) (m m' : Memory) (q n : ℕ) : Prop :=
  (q = 0 ∧ m'.bytes = m.bytes) ∨ (q ≠ 0 ∧ Zeroed live m m' q n)

/-! ## Clearing -/

/-- The memory after `memset(p, 0, n)`. -/
def cleared (m : Memory) (p n : ℕ) : Memory := { m with bytes := put m.bytes p n 0 }

theorem store_cleared (h : m.Accessible q n) :
    m.store Stop.segfault q n 0 = .ok (cleared m q n) :=
  if_pos h

/-- Nothing is cleared if there is nothing to clear, whatever the pointer is. -/
theorem cleared_zero (m : Memory) (q : ℕ) : cleared m q 0 = m := by
  have hbytes : put m.bytes q 0 0 = m.bytes := funext fun x => put_of_notMem (Nat.lt_or_ge x q)
  rw [cleared, hbytes]

theorem accessible_zero (m : Memory) (q : ℕ) : m.Accessible q 0 :=
  fun i hi => absurd hi (Nat.not_lt_zero i)

theorem bytes_cleared_of_mem {x : ℕ} (h₀ : q ≤ x) (h₁ : x < q + n) :
    (cleared m q n).bytes x = 0 := by
  show put m.bytes q n 0 x = 0
  rw [put_of_mem h₀ h₁, Nat.zero_div]
  rfl

theorem bytes_cleared_of_notMem {x : ℕ} (h : x < q ∨ q + n ≤ x) :
    (cleared m q n).bytes x = m.bytes x :=
  put_of_notMem h

/-- A header outside the range keeps its fields. -/
theorem get_cleared (f : Field) (h : b + blockSize ≤ q ∨ q + n ≤ b) :
    get (cleared m q n) f b = get m f b :=
  get_congr f fun x h₀ h₁ => bytes_cleared_of_notMem (by omega)

/-- **A block that is handed out and cleared** keeps the promise. -/
theorem zeroed_cleared (hb : b + blockSize < 2 ^ 64) (hnew : b + blockSize ∉ live.map Prod.fst)
    (htaken : get m' .free b = 0) (hlarge : n ≤ get m' .size b)
    (hmapped : m'.Accessible (b + blockSize) n)
    (hothers : ∀ e ∈ live, ∀ x, e.1 ≤ x → x < e.1 + get m .size (headerOf e.1) →
      m'.bytes x = m.bytes x ∧ (x < b + blockSize ∨ b + blockSize + n ≤ x)) :
    Zeroed live m (cleared m' (b + blockSize) n) (b + blockSize) n where
  new := hnew
  taken := by
    rw [headerOf_add hb, get_cleared _ (Or.inl (Nat.le_refl _)), htaken]
  large := by
    rw [headerOf_add hb, get_cleared _ (Or.inl (Nat.le_refl _))]
    exact hlarge
  mapped := hmapped
  zero x h₀ h₁ := bytes_cleared_of_mem h₀ h₁
  others e he x h₀ h₁ := by
    obtain ⟨hkept, hout⟩ := hothers e he x h₀ h₁
    rw [bytes_cleared_of_notMem hout, hkept]

end Allocator
end SystemsProjects
