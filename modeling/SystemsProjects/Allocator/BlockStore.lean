import SystemsProjects.Lib.ByteMemory

/-!
# Blocks in memory

Both allocators keep their free lists in the memory they hand out.  In front of
every payload stands a `block_t`,

    typedef struct block { size_t size; struct block* next; int free; } block_t;

at offsets 0, 8 and 16 of the 24 bytes of `BLOCK_SIZE`.

The code of the allocators reads and writes the three fields and asks for more
memory, and nothing else, so it is written over a class `BlockStore` of memories
that allow this.  The laws say that a store to a field changes this field of this
block only, as far as the headers that stand apart from it are concerned.  The
instance is the byte memory, where two headers stand apart if they do not
overlap.
-/

namespace SystemsProjects
namespace Allocator

open Lib

/-- Why a call does not return. -/
inductive Stop where
  /-- an access to memory that is not mapped -/
  | segfault
  /-- the mutex is never released -/
  | deadlock
  /-- a walk along a list that does not end -/
  | diverges
  deriving DecidableEq, Repr

/-- `BLOCK_SIZE`, the size of a `block_t` with its padding. -/
def blockSize : ℕ := 24

/-- The fields of a `block_t`. -/
inductive Field where
  | size
  | next
  | free
  deriving DecidableEq, Repr

namespace Field

/-- Where the field starts. -/
def offset : Field → ℕ
  | size => 0
  | next => 8
  | free => 16

/-- How many bytes the field has. -/
def width : Field → ℕ
  | size => 8
  | next => 8
  | free => 4

/-- A field lies in the header. -/
theorem offset_add_width_le (f : Field) : f.offset + f.width ≤ blockSize := by
  cases f <;> decide

/-- Two fields do not overlap. -/
theorem disjoint {f g : Field} (h : f ≠ g) :
    f.offset + f.width ≤ g.offset ∨ g.offset + g.width ≤ f.offset := by
  cases f <;> cases g <;> first | exact absurd rfl h | decide

/-- What holds of the bytes of a header holds of the bytes of a field. -/
theorem forall_bytes {P : ℕ → Prop} {b : ℕ} (f : Field) (h : ∀ i < blockSize, P (b + i)) :
    ∀ i < f.width, P (b + f.offset + i) := by
  intro i hi
  have hf := f.offset_add_width_le
  rw [Nat.add_assoc]
  exact h _ (by omega)

end Field

/-- A memory with blocks in it. -/
class BlockStore (M : Type) where
  /-- `b->f` -/
  load : M → Field → ℕ → Except Stop ℕ
  /-- `b->f = v` -/
  store : M → Field → ℕ → ℕ → Except Stop M
  /-- the operating system maps one more region -/
  map : M → Extent → M
  /-- the regions that have been mapped -/
  regions : M → List Extent
  /-- the field of a block, wherever the block is -/
  get : M → Field → ℕ → ℕ
  /-- the memory with a field written -/
  set : M → Field → ℕ → ℕ → M
  /-- the header at this address can be read and written -/
  Header : M → ℕ → Prop
  /-- headers at the two addresses do not interfere -/
  Apart (M) : ℕ → ℕ → Prop
  load_eq {m : M} {b : ℕ} (f : Field) : Header m b → load m f b = .ok (get m f b)
  store_eq {m : M} {b : ℕ} (f : Field) (v : ℕ) :
    Header m b → store m f b v = .ok (set m f b v)
  get_set_self (m : M) (f : Field) (b v : ℕ) :
    get (set m f b v) f b = v % 256 ^ f.width
  get_set_of_ne (m : M) {f g : Field} (b v : ℕ) :
    g ≠ f → get (set m f b v) g b = get m g b
  get_set_of_apart (m : M) {b c : ℕ} (f g : Field) (v : ℕ) :
    Apart b c → get (set m f b v) g c = get m g c
  header_set {m : M} (f : Field) (b v : ℕ) {c : ℕ} : Header m c → Header (set m f b v) c
  regions_set (m : M) (f : Field) (b v : ℕ) : regions (set m f b v) = regions m
  get_map (m : M) (e : Extent) (f : Field) (b : ℕ) : get (map m e) f b = get m f b
  header_map {m : M} (e : Extent) {b : ℕ} : Header m b → Header (map m e) b
  regions_map (m : M) (e : Extent) : regions (map m e) = e :: regions m
  header_of_within {m : M} {b : ℕ} {r : Extent} :
    r ∈ regions m → (⟨b, blockSize⟩ : Extent).Within r → Header m b
  apart_symm {b c : ℕ} : Apart b c → Apart c b
  apart_of_disjoint {b c : ℕ} : b + blockSize ≤ c ∨ c + blockSize ≤ b → Apart b c

/-- Blocks as bytes of a byte-addressed memory. -/
instance : BlockStore Memory where
  load m f b := m.load .segfault (b + f.offset) f.width
  store m f b v := m.store .segfault (b + f.offset) f.width v
  map := Memory.map
  regions := Memory.mapped
  get m f b := value m.bytes (b + f.offset) f.width
  set m f b v := { m with bytes := put m.bytes (b + f.offset) f.width v }
  Header m b := m.Accessible b blockSize
  Apart b c := b + blockSize ≤ c ∨ c + blockSize ≤ b
  load_eq f h := if_pos (f.forall_bytes h)
  store_eq f v h := if_pos (f.forall_bytes h)
  get_set_self m f b v := value_put_self _ _ _
  get_set_of_ne m f g b v h := by
    have hfg := Field.disjoint h
    exact value_put_of_disjoint (by omega)
  get_set_of_apart m b c f g v h := by
    have hf := f.offset_add_width_le
    have hg := g.offset_add_width_le
    exact value_put_of_disjoint (by omega)
  header_set {m} f b v {c} h := h
  regions_set m f b v := rfl
  get_map m e f b := rfl
  header_map {m} e b h := fun i hi => (m.isMapped_map e _).mpr (Or.inr (h i hi))
  regions_map m e := rfl
  header_of_within {m b r} hr h := m.accessible_of_within hr h
  apart_symm h := Or.symm h
  apart_of_disjoint h := h

/-- What the operating system may map: a region in user space that shares no byte
with the regions mapped before. -/
structure Fresh {M : Type} [BlockStore M] (m : M) (e : Extent) : Prop where
  pos : 0 < e.start
  stop : e.stop ≤ 2 ^ 63
  disjoint : ∀ r ∈ BlockStore.regions m, e.Disjoint r

instance {M : Type} [BlockStore M] (m : M) (e : Extent) : Decidable (Fresh m e) :=
  decidable_of_iff
    (0 < e.start ∧ e.stop ≤ 2 ^ 63 ∧ ∀ r ∈ BlockStore.regions m, e.Disjoint r)
    ⟨fun h => ⟨h.1, h.2.1, h.2.2⟩, fun h => ⟨h.pos, h.stop, h.disjoint⟩⟩

/-! ## Pointers -/

/-- `b + 1` for a `block_t* b`: the payload of the block. -/
def payload (b : ℕ) : ℕ := (b + blockSize) % 2 ^ 64

/-- `(block_t*)p - 1`: the block of a payload. -/
def headerOf (p : ℕ) : ℕ := (p + (2 ^ 64 - blockSize)) % 2 ^ 64

theorem payload_of_lt {b : ℕ} (h : b + blockSize < 2 ^ 64) : payload b = b + blockSize :=
  Nat.mod_eq_of_lt h

theorem headerOf_add {b : ℕ} (h : b + blockSize < 2 ^ 64) : headerOf (b + blockSize) = b := by
  have hb : b < 2 ^ 64 := Nat.lt_of_le_of_lt (Nat.le_add_right b blockSize) h
  rw [headerOf, Nat.add_assoc, Nat.add_sub_cancel' (by decide), Nat.add_mod_right,
    Nat.mod_eq_of_lt hb]

/-! ## Fields after a store -/

section Laws

variable {M : Type} [BlockStore M] {m : M} {b c v sz nx fr : ℕ}

open BlockStore

/-- A value that fits its field is stored whole. -/
theorem get_set_of_lt (m : M) {f : Field} (b : ℕ) (hv : v < 256 ^ f.width) :
    get (set m f b v) f b = v := by
  rw [get_set_self, Nat.mod_eq_of_lt hv]

/-- The memory after the three fields of a block have been written. -/
def withHeader (m : M) (b sz nx fr : ℕ) : M :=
  set (set (set m .size b sz) .next b nx) .free b fr

theorem size_withHeader (h : sz < 2 ^ 64) : get (withHeader m b sz nx fr) .size b = sz := by
  rw [withHeader, get_set_of_ne _ _ _ (by decide), get_set_of_ne _ _ _ (by decide),
    get_set_of_lt m b h]

theorem next_withHeader (h : nx < 2 ^ 64) : get (withHeader m b sz nx fr) .next b = nx := by
  rw [withHeader, get_set_of_ne _ _ _ (by decide), get_set_of_lt _ b h]

theorem free_withHeader (h : fr < 2 ^ 32) : get (withHeader m b sz nx fr) .free b = fr := by
  rw [withHeader, get_set_of_lt _ b h]

theorem get_withHeader (h : Apart M b c) (f : Field) :
    get (withHeader m b sz nx fr) f c = get m f c := by
  rw [withHeader, get_set_of_apart _ _ _ _ h, get_set_of_apart _ _ _ _ h,
    get_set_of_apart _ _ _ _ h]

theorem header_withHeader (h : Header m c) : Header (withHeader m b sz nx fr) c :=
  header_set _ _ _ (header_set _ _ _ (header_set _ _ _ h))

theorem regions_withHeader : regions (withHeader m b sz nx fr) = regions m := by
  rw [withHeader, regions_set, regions_set, regions_set]

end Laws

/-! ## Fields and bytes -/

section Bytes

open BlockStore

variable {b : ℕ}

/-- A store to a field changes its own bytes only. -/
theorem bytes_set (m : Memory) (f : Field) (b v : ℕ) {x : ℕ}
    (hx : x < b + f.offset ∨ b + f.offset + f.width ≤ x) :
    (set m f b v).bytes x = m.bytes x :=
  put_of_notMem hx

/-- and so it changes bytes of the header only, -/
theorem bytes_set_of_header (m : Memory) (f : Field) (b v : ℕ) {x : ℕ}
    (hx : x < b ∨ b + blockSize ≤ x) : (set m f b v).bytes x = m.bytes x := by
  have hf := f.offset_add_width_le
  exact bytes_set m f b v (by omega)

/-- as do three stores. -/
theorem bytes_withHeader (m : Memory) (b s nx fr : ℕ) {x : ℕ}
    (hx : x < b ∨ b + blockSize ≤ x) : (withHeader m b s nx fr).bytes x = m.bytes x := by
  rw [withHeader, bytes_set_of_header _ _ _ _ hx, bytes_set_of_header _ _ _ _ hx,
    bytes_set_of_header _ _ _ _ hx]

/-- A field depends on the bytes of its header. -/
theorem get_congr {m m' : Memory} (f : Field)
    (h : ∀ x, b ≤ x → x < b + blockSize → m'.bytes x = m.bytes x) :
    get m' f b = get m f b := by
  have hf := f.offset_add_width_le
  exact value_congr fun x h₀ h₁ => h x (by omega) (by omega)

end Bytes

end Allocator
end SystemsProjects
