import SystemsProjects.Lib.ByteMemory

/-!
# Records of numbers in an array of bytes

A field is a place, a width and a number.  A record is written field by field; fields that lie
apart hold their numbers afterwards, and whatever lies apart from all of them is as it was.
-/

namespace SystemsProjects
namespace Lib

/-- A place in an array of bytes, a number of bytes, and what they hold. -/
structure RecordField where
  start : ℕ
  width : ℕ
  value : ℕ

/-- The field ends where the other begins, or before. -/
def RecordField.Before (f g : RecordField) : Prop := f.start + f.width ≤ g.start

/-- The bytes with all the fields written, one behind the other. -/
def putFields (bytes : ℕ → UInt8) (fs : List RecordField) : ℕ → UInt8 :=
  fs.foldl (fun bytes f => put bytes f.start f.width f.value) bytes

variable {bytes : ℕ → UInt8} {fs : List RecordField}

theorem putFields_of_notMem {x : ℕ} : ∀ {fs : List RecordField} {bytes : ℕ → UInt8},
    (∀ f ∈ fs, x < f.start ∨ f.start + f.width ≤ x) → putFields bytes fs x = bytes x
  | [], _, _ => rfl
  | f :: fs, bytes, h => by
    rw [putFields, List.foldl_cons]
    exact (putFields_of_notMem fun g hg => h g (List.mem_cons_of_mem f hg)).trans
      (put_of_notMem (h f List.mem_cons_self))

theorem value_putFields_of_disjoint {b k : ℕ}
    (h : ∀ f ∈ fs, b + k ≤ f.start ∨ f.start + f.width ≤ b) :
    value (putFields bytes fs) b k = value bytes b k :=
  value_congr fun x h₀ h₁ => putFields_of_notMem fun f hf => by
    rcases h f hf with hf | hf
    · exact Or.inl (by omega)
    · exact Or.inr (by omega)

/-- **A record that was written holds what was written.** -/
theorem value_putFields {f : RecordField} : ∀ {fs : List RecordField} {bytes : ℕ → UInt8},
    fs.Pairwise RecordField.Before → f ∈ fs →
      value (putFields bytes fs) f.start f.width = f.value % 256 ^ f.width
  | g :: fs, bytes, hfs, hf => by
    obtain ⟨hg, hfs⟩ := List.pairwise_cons.mp hfs
    rw [putFields, List.foldl_cons]
    rcases List.mem_cons.mp hf with rfl | hf
    · refine (value_putFields_of_disjoint fun g hmem => Or.inl (hg g hmem)).trans ?_
      exact value_put_self _ _ _
    · exact value_putFields hfs hf

end Lib
end SystemsProjects
