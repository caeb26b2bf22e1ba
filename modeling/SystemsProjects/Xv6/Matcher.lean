import Mathlib

/-!
# The pattern matcher of `grep`

`match`, `matchhere` and `matchstar` search a text for a pattern with the operators `^ . * $`.
A text is what stands in front of the terminating NUL, and so is a pattern: `re[0] == '\0'` is
the empty list, and a test of `re[1]` is a pattern of two elements.

What a pattern means is a language: a character stands for itself, a dot for any character,
a star for any number of what stands in front of it, a `$` at the end for the end of the text
and a `^` at the beginning for its beginning.  The matcher tries the possible lengths of a
starred character one after the other and takes the first one with which the rest of the
pattern matches; `matchRe_iff` says that this decides the language.
-/

namespace SystemsProjects
namespace Xv6
namespace Grep

open scoped Computability

/-! ## The functions -/

/-- `text` begins with a character that `c` stands for: `re[0] == '.' || re[0] == *text`. -/
def admits (c t : Char) : Bool := c == '.' || c == t

/-- `matchstar(c, re, text)`, with `matchhere re` for `here`. -/
def matchstar (c : Char) (here : List Char → Bool) : List Char → Bool
  | [] => here []
  | t :: text => here (t :: text) || ((t == c || c == '.') && matchstar c here text)

/-- `matchhere`: search for a pattern at the beginning of a text. -/
def matchhere : List Char → List Char → Bool
  | [], _ => true
  | c :: '*' :: re, text => matchstar c (matchhere re) text
  | ['$'], text => text.isEmpty
  | _ :: _, [] => false
  | c :: re, t :: text => admits c t && matchhere re text

/-- The search of `match` for a pattern that does not begin with `^`. -/
def matchAnywhere (re : List Char) : List Char → Bool
  | [] => matchhere re []
  | t :: text => matchhere re (t :: text) || matchAnywhere re text

/-- `match`: search for a pattern anywhere in a text. -/
def matchRe : List Char → List Char → Bool
  | '^' :: re, text => matchhere re text
  | re, text => matchAnywhere re text

/-! ## What a pattern means -/

/-- The texts of one character that `c` stands for. -/
def symbol (c : Char) : Language Char := {w | ∃ t, (c = '.' ∨ c = t) ∧ w = [t]}

/-- The texts that begin with a match of a pattern without `^`. -/
def body : List Char → Language Char
  | [] => ⊤
  | c :: '*' :: re => (symbol c)∗ * body re
  | ['$'] => 1
  | c :: re => symbol c * body re

/-- **The texts in which a pattern occurs.** -/
def language : List Char → Language Char
  | '^' :: re => body re
  | re => ⊤ * body re

/-! ## The matcher decides the language -/

variable {c t : Char} {text : List Char} {L : Language Char}

theorem admits_iff : admits c t = true ↔ c = '.' ∨ c = t := by
  simp [admits]

theorem mem_top (w : List Char) : w ∈ (⊤ : Language Char) := trivial

theorem mem_symbol_mul_nil : [] ∉ symbol c * L := by
  rintro ⟨a, ⟨t, -, rfl⟩, b, -, h⟩
  cases h

theorem mem_symbol_mul_cons : t :: text ∈ symbol c * L ↔ (c = '.' ∨ c = t) ∧ text ∈ L := by
  constructor
  · rintro ⟨a, ⟨t', ht, rfl⟩, b, hb, h⟩
    obtain ⟨rfl, rfl⟩ := List.cons.inj h
    exact ⟨ht, hb⟩
  · rintro ⟨ht, htext⟩
    exact ⟨[t], ⟨t, ht, rfl⟩, text, htext, rfl⟩

/-- No character of the star, or one and the star again. -/
theorem kstar_symbol_mul (c : Char) (L : Language Char) :
    (symbol c)∗ * L = L + symbol c * ((symbol c)∗ * L) := by
  conv_lhs => rw [← Language.one_add_self_mul_kstar_eq_kstar, add_mul, one_mul, mul_assoc]

/-- **`matchstar` tries all lengths of the star.** -/
theorem matchstar_iff {here : List Char → Bool} (hhere : ∀ w, here w = true ↔ w ∈ L) :
    ∀ text, matchstar c here text = true ↔ text ∈ (symbol c)∗ * L := by
  intro text
  induction text with
  | nil =>
    rw [matchstar, hhere, kstar_symbol_mul, Language.mem_add]
    exact (or_iff_left mem_symbol_mul_nil).symm
  | cons t text ih =>
    rw [kstar_symbol_mul, Language.mem_add, mem_symbol_mul_cons, ← hhere, ← ih, matchstar,
      Bool.or_eq_true, Bool.and_eq_true, Bool.or_eq_true, beq_iff_eq, beq_iff_eq]
    exact or_congr_right (and_congr_left' (or_comm.trans (or_congr_right eq_comm)))

theorem matchhere_iff (re : List Char) : ∀ text, matchhere re text = true ↔ text ∈ body re := by
  induction re using body.induct with
  | case1 => exact fun text => iff_of_true rfl (mem_top text)
  | case2 c re ih =>
    intro text
    rw [matchhere, body]
    exact matchstar_iff ih text
  | case3 =>
    intro text
    rw [matchhere, body, List.isEmpty_iff, Language.mem_one]
  | case4 c re hstar hend ih =>
    intro text
    rw [body]
    · cases text with
      | nil =>
        rw [matchhere]
        · exact iff_of_false Bool.false_ne_true mem_symbol_mul_nil
        · exact hstar
        · exact hend
      | cons t text =>
        rw [matchhere, Bool.and_eq_true, admits_iff, mem_symbol_mul_cons, ih]
        · exact hstar
        · exact hend
    · exact hstar
    · exact hend

theorem matchAnywhere_iff (re : List Char) :
    ∀ text, matchAnywhere re text = true ↔ text ∈ ⊤ * body re := by
  intro text
  induction text with
  | nil =>
    rw [matchAnywhere, matchhere_iff]
    constructor
    · exact fun h => ⟨[], mem_top [], [], h, rfl⟩
    · rintro ⟨a, -, b, hb, h⟩
      rwa [(List.append_eq_nil_iff.mp h).2] at hb
  | cons t text ih =>
    rw [matchAnywhere, Bool.or_eq_true, matchhere_iff, ih]
    constructor
    · rintro (h | ⟨a, -, b, hb, rfl⟩)
      · exact ⟨[], mem_top [], t :: text, h, rfl⟩
      · exact ⟨t :: a, mem_top _, b, hb, rfl⟩
    · rintro ⟨a, -, b, hb, h⟩
      cases a with
      | nil =>
        rw [← h]
        exact Or.inl hb
      | cons t' a => exact Or.inr ⟨a, mem_top a, b, hb, (List.cons.inj h).2⟩

/-- **`match` decides whether a pattern occurs in a text.** -/
theorem matchRe_iff (re text : List Char) : matchRe re text = true ↔ text ∈ language re := by
  unfold matchRe language
  split
  · exact matchhere_iff _ text
  · rename_i hcaret
    split
    · exact absurd rfl (hcaret _)
    · exact matchAnywhere_iff re text

instance (re text : List Char) : Decidable (text ∈ language re) :=
  decidable_of_iff _ (matchRe_iff re text)

example : matchRe "^ab*c.$".toList "abbbcd".toList = true := by decide

end Grep
end Xv6
end SystemsProjects
