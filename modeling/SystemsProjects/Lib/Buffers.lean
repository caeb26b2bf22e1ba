import SystemsProjects.Lib.Exec
import SystemsProjects.Lib.Fields

/-!
# Strings in buffers, and the state of `strtok`

Character arrays of a fixed size, and pointers into them.  A string is what stands in front of
the next NUL, and a function that finds no NUL in the array reads outside of it.

`strtok` takes a string to pieces in place.  It writes a NUL over the delimiter behind the token
and remembers the place behind it, for the calls with NULL that follow.  There is one such place for
the whole program.  `strtok_token` says what a call does while there are tokens left: it returns
the first one, the remembered place has a string with the other ones, and nothing in front of the
string it began with is written.
-/

namespace SystemsProjects
namespace Lib

/-- A place in a buffer. -/
structure Pointer (β : Type) where
  buffer : β
  offset : ℕ
  deriving DecidableEq

/-- The contents of the buffers, and the place that `strtok` remembers. -/
structure Buffers (β : Type) where
  bytes : β → ℕ → UInt8
  saved : Option (Pointer β)

/-- How a call on character arrays can fail. -/
inductive BufferFault where
  /-- an access outside of an array -/
  | outOfBounds
  /-- NULL is used as a string -/
  | nullArgument
  | diverges
  deriving DecidableEq, Repr

/-! ## Strings in an array -/

/-- The string from place `k` on, if a NUL ends it within `n` characters. -/
def scan (bytes : ℕ → UInt8) : ℕ → ℕ → Option (List UInt8)
  | 0, _ => none
  | n + 1, k => if bytes k = 0 then some [] else (scan bytes n (k + 1)).map (bytes k :: ·)

/-- From place `k` on there is the string `s`, with its NUL. -/
def HasString (bytes : ℕ → UInt8) : ℕ → List UInt8 → Prop
  | k, [] => bytes k = 0
  | k, c :: s => (bytes k = c ∧ c ≠ 0) ∧ HasString bytes (k + 1) s

/-- The characters `s` and a NUL from place `k` on. -/
def putString (bytes : ℕ → UInt8) (k : ℕ) (s : List UInt8) : ℕ → UInt8 := fun x =>
  if k ≤ x ∧ x ≤ k + s.length then s.getD (x - k) 0 else bytes x

namespace HasString

variable {bytes bytes' : ℕ → UInt8} {k n : ℕ} {s t : List UInt8}

theorem scan_eq : ∀ {s : List UInt8} {n k : ℕ}, HasString bytes k s → s.length < n →
    scan bytes n k = some s
  | _, 0, _, _, hn => absurd hn (Nat.not_lt_zero _)
  | [], n + 1, k, h, _ => if_pos h
  | c :: s, n + 1, k, h, hn => by
    obtain ⟨⟨rfl, hc⟩, h⟩ := h
    rw [scan, if_neg hc, h.scan_eq (Nat.lt_of_succ_lt_succ hn)]
    rfl

/-- A string depends on its own characters and its NUL. -/
theorem congr : ∀ {s : List UInt8} {k : ℕ}, HasString bytes k s →
    (∀ x, k ≤ x → x ≤ k + s.length → bytes' x = bytes x) → HasString bytes' k s
  | [], k, h, heq => (heq k (Nat.le_refl k) (Nat.le_refl k)).trans h
  | c :: s, k, h, heq => by
    refine ⟨⟨(heq k (Nat.le_refl k) (Nat.le_add_right _ _)).trans h.1.1, h.1.2⟩,
      h.2.congr fun x h₀ h₁ => heq x (by omega) ?_⟩
    rw [List.length_cons]
    omega

theorem zero_notMem : ∀ {s : List UInt8} {k : ℕ}, HasString bytes k s → 0 ∉ s
  | [], _, _ => List.not_mem_nil
  | c :: s, k, h => by
    rw [List.mem_cons, not_or]
    exact ⟨Ne.symm h.1.2, h.2.zero_notMem⟩

/-- The end of a string is a string. -/
theorem right : ∀ {s : List UInt8} {k : ℕ}, HasString bytes k (s ++ t) →
    HasString bytes (k + s.length) t
  | [], _, h => h
  | c :: s, k, h => by
    have hright := right h.2
    rw [List.length_cons, Nat.add_comm s.length 1, ← Nat.add_assoc]
    exact hright

/-- A NUL in a string ends it. -/
theorem left : ∀ {s : List UInt8} {k : ℕ}, HasString bytes k (s ++ t) →
    HasString (Function.update bytes (k + s.length) 0) k s
  | [], k, _ => Function.update_self k 0 bytes
  | c :: s, k, h => by
    have hleft := left h.2
    rw [List.length_cons, Nat.add_comm s.length 1, ← Nat.add_assoc]
    refine ⟨⟨?_, h.1.2⟩, hleft⟩
    rw [Function.update_of_ne (by omega)]
    exact h.1.1

theorem putString_self : ∀ {s : List UInt8} {k : ℕ}, 0 ∉ s → HasString (putString bytes k s) k s
  | [], k, _ => if_pos ⟨Nat.le_refl k, Nat.le_refl k⟩
  | c :: s, k, hs => by
    rw [List.mem_cons, not_or] at hs
    have hrest : HasString (putString bytes (k + 1) s) (k + 1) s := putString_self hs.2
    refine ⟨⟨?_, Ne.symm hs.1⟩, hrest.congr fun x h₀ h₁ => ?_⟩
    · rw [putString, if_pos ⟨Nat.le_refl k, Nat.le_add_right _ _⟩, Nat.sub_self]
      rfl
    · have hx : x - k = x - (k + 1) + 1 := by omega
      rw [putString, putString, if_pos ⟨by omega, by rw [List.length_cons]; omega⟩,
        if_pos ⟨h₀, h₁⟩, hx, List.getD_cons_succ]

end HasString

/-! ## The functions -/

namespace Buffers

variable {β : Type} [DecidableEq β]

/-- The string behind a pointer, in arrays of the given sizes. -/
def stringAt (size : β → ℕ) (m : Buffers β) (p : Pointer β) :
    Except BufferFault (List UInt8) :=
  match scan (m.bytes p.buffer) (size p.buffer - p.offset) p.offset with
  | none => .error .outOfBounds
  | some s => pure s

/-- A pointer that is used as a string is not NULL. -/
def nonNull : Option (Pointer β) → Except BufferFault (Pointer β)
  | none => .error .nullArgument
  | some p => pure p

/-- The bytes of one buffer. -/
def setBytes (m : Buffers β) (b : β) (bytes : ℕ → UInt8) : Buffers β :=
  { m with bytes := Function.update m.bytes b bytes }

/-- A string and its NUL at the start of a buffer. -/
def store (size : β → ℕ) (m : Buffers β) (b : β) (s : List UInt8) :
    Except BufferFault (Buffers β) :=
  if s.length < size b then pure (m.setBytes b (putString (m.bytes b) 0 s))
  else .error .outOfBounds

/-- `strcpy` of the string behind `p` to the start of buffer `b`. -/
def strcpy (size : β → ℕ) (m : Buffers β) (b : β) (p : Option (Pointer β)) :
    Except BufferFault (Buffers β) := do
  let p ← nonNull p
  let s ← stringAt size m p
  m.store size b s

/-- `strtok(s, delim)`, where `none` is NULL. -/
def strtok (size : β → ℕ) (m : Buffers β) (s : Option (Pointer β)) (delim : UInt8 → Bool) :
    Except BufferFault (Buffers β × Option (Pointer β)) := do
  let p ← nonNull (s <|> m.saved)
  let text ← stringAt size m p
  let rest := text.dropWhile delim
  let token := rest.takeWhile (!delim ·)
  let start := p.offset + (text.takeWhile delim).length
  let stop := start + token.length
  if rest = [] then pure ({ m with saved := some ⟨p.buffer, start⟩ }, none)
  else if token = rest then
    -- the token is the end of the string
    pure ({ m with saved := some ⟨p.buffer, stop⟩ }, some ⟨p.buffer, start⟩)
  else
    let m := m.setBytes p.buffer (Function.update (m.bytes p.buffer) stop 0)
    pure ({ m with saved := some ⟨p.buffer, stop + 1⟩ }, some ⟨p.buffer, start⟩)

/-! ## What the functions do -/

variable {size : β → ℕ} {m m' : Buffers β} {p : Pointer β} {s : Option (Pointer β)}
  {delim : UInt8 → Bool} {text tok : List UInt8} {toks : List (List UInt8)}

/-- The pointer leads to the string `s`, inside of its array. -/
structure PointsTo (size : β → ℕ) (m : Buffers β) (p : Pointer β) (s : List UInt8) : Prop where
  hasString : HasString (m.bytes p.buffer) p.offset s
  inside : p.offset + s.length < size p.buffer

omit [DecidableEq β] in
theorem PointsTo.stringAt_eq (h : PointsTo size m p text) : stringAt size m p = .ok text := by
  have hinside := h.inside
  rw [stringAt, h.hasString.scan_eq (by omega)]
  rfl

omit [DecidableEq β] in
/-- A string that is not written over. -/
theorem PointsTo.congr (h : PointsTo size m p text)
    (hsame : ∀ x, x ≤ p.offset + text.length → m'.bytes p.buffer x = m.bytes p.buffer x) :
    PointsTo size m' p text :=
  ⟨h.hasString.congr fun x _ hx => hsame x hx, h.inside⟩

/-- **Nothing is left**: only delimiters. -/
theorem strtok_end (hp : (s <|> m.saved) = some p) (h : PointsTo size m p text)
    (hnone : fields delim text = []) :
    ∃ k, strtok size m s delim = .ok ({ m with saved := some ⟨p.buffer, k⟩ }, none) := by
  have hrest : text.dropWhile delim = [] :=
    List.dropWhile_eq_nil_iff.mpr (fields_eq_nil_iff.mp hnone)
  refine ⟨p.offset + (text.takeWhile delim).length, ?_⟩
  rw [strtok, hp, nonNull, pure_eq_ok, ok_bind, h.stringAt_eq, ok_bind]
  exact if_pos hrest

/-- What a call that returns a token leaves behind. -/
structure Taken (size : β → ℕ) (delim : UInt8 → Bool) (m m' : Buffers β) (p : Pointer β)
    (tok : List UInt8) (toks : List (List UInt8)) (start : ℕ) : Prop where
  token : PointsTo size m' ⟨p.buffer, start⟩ tok
  /-- the remembered place, behind the token, has the other tokens -/
  saved : ∃ k text', m'.saved = some ⟨p.buffer, k⟩ ∧ start + tok.length ≤ k ∧
    PointsTo size m' ⟨p.buffer, k⟩ text' ∧ fields delim text' = toks
  after : p.offset ≤ start
  /-- what ends in front of the string or where it begins is not written -/
  kept : ∀ x, x ≤ p.offset → m'.bytes p.buffer x = m.bytes p.buffer x

/-- **A token is left.** -/
theorem strtok_token (hp : (s <|> m.saved) = some p) (h : PointsTo size m p text)
    (hsome : fields delim text = tok :: toks) :
    ∃ m' start, strtok size m s delim = .ok (m', some ⟨p.buffer, start⟩) ∧
      Taken size delim m m' p tok toks start := by
  obtain ⟨behind, hdrop, hne, htake, hbehind⟩ := fields_eq_cons hsome
  obtain ⟨front, hfront⟩ : ∃ front, text.takeWhile delim = front := ⟨_, rfl⟩
  have hpos := List.length_pos_iff.mpr hne
  have hinside := h.inside
  have hstring := h.hasString
  rw [← List.takeWhile_append_dropWhile (p := delim) (l := text), hfront, hdrop] at hinside hstring
  rw [List.length_append, List.length_append] at hinside
  have hright := hstring.right
  rw [strtok, hp, nonNull, pure_eq_ok, ok_bind, h.stringAt_eq, ok_bind]
  dsimp only
  rw [hdrop, htake, hfront, if_neg (List.append_ne_nil_of_left_ne_nil hne behind)]
  rcases hbehind with ⟨rfl, rfl⟩ | ⟨d, text', rfl, htoks⟩
  · -- the NUL of the string ends the token
    have hend := hright.right
    rw [List.append_nil] at hright
    rw [List.length_nil, Nat.add_zero, ← Nat.add_assoc] at hinside
    refine ⟨_, _, if_pos (List.append_nil tok).symm, ⟨hright, hinside⟩,
      ⟨_, [], rfl, Nat.le_refl _, ⟨hend, hinside⟩, fields_nil delim⟩, Nat.le_add_right _ _,
      fun _ _ => rfl⟩
  · -- the delimiter behind the token becomes a NUL
    have hlonger : tok ≠ tok ++ d :: text' := fun heq => by
      have hlen := congrArg List.length heq
      rw [List.length_append, List.length_cons] at hlen
      omega
    have hbytes : ∀ bytes, (m.setBytes p.buffer bytes).bytes p.buffer = bytes :=
      fun bytes => Function.update_self _ _ _
    rw [List.length_cons] at hinside
    refine ⟨_, _, if_neg hlonger, ⟨?_, ?_⟩, ⟨_, text', rfl, Nat.le_succ _, ⟨?_, ?_⟩, htoks⟩,
      Nat.le_add_right _ _, fun x hx => ?_⟩
    · dsimp only
      rw [hbytes]
      exact hright.left
    · dsimp only
      omega
    · refine hright.right.2.congr fun x hx _ => ?_
      dsimp only at hx ⊢
      rw [hbytes, Function.update_of_ne (by omega)]
    · dsimp only
      omega
    · dsimp only
      rw [hbytes, Function.update_of_ne (by omega)]

/-- The other buffers are not written, and the remembered place stays in the buffer. -/
theorem strtok_frame {r : Option (Pointer β)} (hp : (s <|> m.saved) = some p)
    (hcall : strtok size m s delim = .ok (m', r)) :
    (∃ k, m'.saved = some ⟨p.buffer, k⟩) ∧ ∀ b, b ≠ p.buffer → m'.bytes b = m.bytes b := by
  rw [strtok, hp, nonNull, pure_eq_ok, ok_bind] at hcall
  obtain ⟨text, -, hcall⟩ := bind_eq_ok.mp hcall
  dsimp only at hcall
  split at hcall
  · obtain ⟨rfl, -⟩ := Prod.mk.inj (Except.ok.inj hcall)
    exact ⟨⟨_, rfl⟩, fun _ _ => rfl⟩
  · split at hcall
    · obtain ⟨rfl, -⟩ := Prod.mk.inj (Except.ok.inj hcall)
      exact ⟨⟨_, rfl⟩, fun _ _ => rfl⟩
    · obtain ⟨rfl, -⟩ := Prod.mk.inj (Except.ok.inj hcall)
      exact ⟨⟨_, rfl⟩, fun b hb => Function.update_of_ne hb _ _⟩

/-- **A string is stored** at the start of a buffer. -/
theorem store_eq {b : β} (hs : 0 ∉ text) (hsize : text.length < size b) :
    ∃ m', m.store size b text = .ok m' ∧ PointsTo size m' ⟨b, 0⟩ text ∧ m'.saved = m.saved ∧
      ∀ b', b' ≠ b → m'.bytes b' = m.bytes b' := by
  refine ⟨_, if_pos hsize, ⟨?_, ?_⟩, rfl, fun b' hb => Function.update_of_ne hb _ _⟩
  · have hbytes : (m.setBytes b (putString (m.bytes b) 0 text)).bytes b =
        putString (m.bytes b) 0 text := Function.update_self _ _ _
    rw [hbytes]
    exact HasString.putString_self hs
  · rw [Nat.zero_add]
    exact hsize

theorem strcpy_eq {b : β} (h : PointsTo size m p text) :
    strcpy size m b (some p) = m.store size b text := by
  rw [strcpy, nonNull, pure_eq_ok, ok_bind, h.stringAt_eq, ok_bind]

end Buffers

end Lib
end SystemsProjects
