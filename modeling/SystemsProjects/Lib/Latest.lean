import Mathlib

/-!
# The latest entry with a given key

A history is a list, oldest entry first, and every entry has a key.  `latest key
l k` is the last entry of `l` whose key is `k`.  A store that keeps one entry for
each key and always overwrites it holds `latest` of its history; `latest_concat`
is the update such a store makes, and `latest_eq_some_iff` reads the store back
as a statement about positions of the history.
-/

namespace SystemsProjects
namespace Lib

variable {α κ : Type*} [DecidableEq κ] {key : α → κ}

/-- The last entry of a history whose key is `k`. -/
def latest (key : α → κ) (l : List α) (k : κ) : Option α :=
  l.reverse.find? fun a => key a = k

@[simp] theorem latest_nil (k : κ) : latest key [] k = none := rfl

theorem latest_concat (l : List α) (a : α) (k : κ) :
    latest key (l ++ [a]) k = if key a = k then some a else latest key l k := by
  rw [latest, List.reverse_append, List.reverse_singleton, List.singleton_append,
    List.find?_cons]
  by_cases h : key a = k <;> simp [h, latest]

/-- **The latest entry, by positions**: it stands at a place with key `k` behind
which there is no other. -/
theorem latest_eq_some_iff {l : List α} {k : κ} {a : α} :
    latest key l k = some a ↔
      ∃ j : ℕ, l[j]? = some a ∧ key a = k ∧
        ∀ (i : ℕ) (b : α), j < i → l[i]? = some b → key b ≠ k := by
  induction l using List.reverseRecOn with
  | nil => simp
  | append_singleton l x ih =>
    rw [latest_concat]
    by_cases hx : key x = k
    · rw [if_pos hx, Option.some.injEq]
      constructor
      · rintro rfl
        refine ⟨l.length, by simp, hx, fun i b hi hb => ?_⟩
        rw [List.getElem?_eq_none (by simp; omega)] at hb
        cases hb
      · rintro ⟨j, hj, -, hlast⟩
        have hlen : j < (l ++ [x]).length := (List.getElem?_eq_some_iff.mp hj).1
        rw [List.length_append, List.length_singleton] at hlen
        rcases Nat.lt_succ_iff_lt_or_eq.mp hlen with hlt | rfl
        · exact absurd hx (hlast l.length x hlt (by simp))
        · simpa using hj
    · rw [if_neg hx, ih]
      constructor
      · rintro ⟨j, hj, ha, hlast⟩
        have hlen : j < l.length := (List.getElem?_eq_some_iff.mp hj).1
        refine ⟨j, by rw [List.getElem?_append_left hlen, hj], ha, fun i b hi hb => ?_⟩
        rcases lt_or_ge i l.length with hlt | hge
        · rw [List.getElem?_append_left hlt] at hb
          exact hlast i b hi hb
        · have hmem : b ∈ [x] := by
            rw [List.getElem?_append_right hge] at hb
            exact List.mem_of_getElem? hb
          rw [List.mem_singleton.mp hmem]
          exact hx
      · rintro ⟨j, hj, ha, hlast⟩
        rcases lt_or_ge j l.length with hlt | hge
        · rw [List.getElem?_append_left hlt] at hj
          refine ⟨j, hj, ha, fun i b hi hb => hlast i b hi ?_⟩
          rw [List.getElem?_append_left (List.getElem?_eq_some_iff.mp hb).1, hb]
        · have hmem : a ∈ [x] := by
            rw [List.getElem?_append_right hge] at hj
            exact List.mem_of_getElem? hj
          rw [List.mem_singleton.mp hmem] at ha
          exact absurd ha hx

end Lib
end SystemsProjects
