import SystemsProjects.Lib.Loop
import SystemsProjects.Lib.Scanf

/-!
# `create_list` of `linkedlist.c`

`Lab2_LinkedList/linkedlist.c` reads the integers of a file into a list.  The first one is
read in front of the loop, and the answer of that `fscanf` is not looked at: an empty file
gives a list of one node, with whatever the variable `buffer` contained.  The loop compares
the answer with EOF, so a character that starts no number, which stays in the file, keeps it
going for ever.

`reads_file_iff` says that nothing else goes wrong.
-/

namespace SystemsProjects
namespace LinkedList

open Lib

/-! ## The code -/

/-- Why `create_list` does not return. -/
inductive Fault where
  /-- `exit(1)`: the file cannot be opened -/
  | exit1
  | badPointer
  /-- the rounds of the loop are used up -/
  | diverges
  deriving DecidableEq, Repr

/-- `node_t`. -/
structure Node where
  wins : ℤ
  next : ℕ
  deriving DecidableEq, Repr

/-- The nodes that have been allocated. -/
abbrev Heap := ℕ → Option Node

/-- What the program does not decide: the address that call `i` of `malloc` returns, what is
in `buffer` before anything is stored in it, and what `fscanf` stores for a number that is
not in the range of an `int`. -/
structure Environment where
  malloc : ℕ → ℕ
  malloc_ne_null : ∀ i, malloc i ≠ 0
  malloc_injective : Function.Injective malloc
  garbage : ℤ
  outOfRange : ℤ → ℤ

/-- `EOF` -/
def eof : ℤ := -1

/-- The conversion to `unsigned char`. -/
def toUChar (n : ℤ) : ℤ := n % 256

/-- What is stored in an `int` for the number `v` of the file. -/
def Environment.convert (env : Environment) (v : ℤ) : ℤ :=
  if -2 ^ 31 ≤ v ∧ v < 2 ^ 31 then v else env.outOfRange v

/-- `fscanf(f, "%d", &buffer)`: the answer, what is left of the file, and `buffer`. -/
def fscanf (env : Environment) (f : List Char) (buffer : ℤ) : ℤ × List Char × ℤ :=
  match scanInt f with
  | .eof => (eof, [], buffer)
  | .noMatch rest => (0, rest, buffer)
  | .number v rest => (1, rest, env.convert v)

/-- The variables of `create_list` but `head`, and the number of calls of `malloc`. -/
structure Reading where
  f : List Char
  buffer : ℤ
  heap : Heap
  current : ℕ
  mallocs : ℕ

/-- `p->next = q` -/
def setNext (heap : Heap) (p q : ℕ) : Except Fault Heap :=
  match heap p with
  | none => .error .badPointer
  | some node => pure (Function.update heap p (some { node with next := q }))

/-- The body of `while(fscanf(f, "%d", &buffer) != EOF)`. -/
def createListBody (env : Environment) (r : Reading) : Except Fault (Reading ⊕ Reading) :=
  let (answer, f, buffer) := fscanf env r.f r.buffer
  if answer ≠ eof then do
    let tail := env.malloc r.mallocs
    let heap := Function.update r.heap tail (some ⟨toUChar buffer, 0⟩)
    let heap ← setNext heap r.current tail
    pure (.inl ⟨f, buffer, heap, tail, r.mallocs + 1⟩)
  else pure (.inr { r with f := f, buffer := buffer })

/-- The first node. -/
def firstNode (env : Environment) (file : List Char) : Reading :=
  let current := env.malloc 0
  let (_, f, buffer) := fscanf env file env.garbage
  ⟨f, buffer, Function.update (fun _ => none) current (some ⟨toUChar buffer, 0⟩), current, 1⟩

/-- `create_list`, with at most `fuel` rounds of the loop: `head`, and the heap.  The file is
`none` if it cannot be opened. -/
def createList (env : Environment) (file : Option (List Char)) (fuel : ℕ) :
    Except Fault (ℕ × Heap) :=
  match file with
  | none => .error .exit1
  | some file => do
    let first := firstNode env file
    let r ← loop .diverges (createListBody env) fuel first
    pure (first.current, r.heap)

/-! ## What is claimed -/

/-- The link of a node, `NULL` where there is no node. -/
def nextOf (heap : Heap) (a : ℕ) : ℕ := ((heap a).map Node.next).getD 0

/-- The wins of a node. -/
def winsOf (heap : Heap) (a : ℕ) : Option ℤ := (heap a).map Node.wins

/-- The file is a sequence of integers in 0..255 with white space between them. -/
def HoldsIntegers (file : List Char) (values : List ℤ) : Prop :=
  Numerals file values ∧ ∀ v ∈ values, 0 ≤ v ∧ v < 256

/-- The list from `head` on ends in NULL and holds the values. -/
def IsListOf (heap : Heap) (head : ℕ) (values : List ℤ) : Prop :=
  ∃ nodes, Visits 0 (nextOf heap) head nodes ∧ nodes.map (winsOf heap) = values.map some

/-- **`create_list` reads the file**: it returns, and if there are integers in the file, it
returns the list of them. -/
def ReadsFile (env : Environment) (file : List Char) : Prop :=
  ∃ fuel head heap, createList env (some file) fuel = .ok (head, heap) ∧
    ∀ values, HoldsIntegers file values → IsListOf heap head values

/-- A character that `fscanf` gets over. -/
def Readable (c : Char) : Prop := isSpace c ∨ isSign c ∨ c.isDigit

instance (c : Char) : Decidable (Readable c) := inferInstanceAs (Decidable (_ ∨ _))

variable {env : Environment} {file : List Char} {head : ℕ} {r : Reading} {values : List ℤ}

/-! ## One call of `fscanf` -/

theorem fscanf_eof (h : scanInt file = .eof) (buffer : ℤ) :
    fscanf env file buffer = (eof, [], buffer) := by
  rw [fscanf, h]

/-- An answer that is not EOF, whether or not a number was read. -/
theorem fscanf_of_ne (env : Environment) (h : scanInt file ≠ .eof) (buffer : ℤ) :
    ∃ answer buffer', fscanf env file buffer = (answer, (scanInt file).rest, buffer') ∧
      answer ≠ eof ∧ ∀ v rest, scanInt file = .number v rest → buffer' = env.convert v := by
  rw [fscanf]
  cases hscan : scanInt file with
  | eof => exact absurd hscan h
  | noMatch rest =>
    refine ⟨0, buffer, rfl, by decide, fun v rest' hv => ?_⟩
    cases hv
  | number v rest =>
    refine ⟨1, env.convert v, rfl, by decide, fun v' rest' hv => ?_⟩
    cases hv
    rfl

/-- The first integer of a file is the one that is read. -/
theorem HoldsIntegers.cons (env : Environment) (h : HoldsIntegers file values)
    (hne : scanInt file ≠ .eof) :
    ∃ v rest, values = v :: rest ∧ env.convert v = v ∧ toUChar v = v ∧
      scanInt file = .number v (scanInt file).rest ∧ HoldsIntegers (scanInt file).rest rest := by
  obtain ⟨hall, hrange⟩ := h
  obtain ⟨v, rest, rfl, hscan, hrest⟩ := hall.cons hne
  obtain ⟨⟨hnonneg, hlt⟩, hrange⟩ := List.forall_mem_cons.mp hrange
  refine ⟨v, rest, rfl, ?_, Int.emod_eq_of_lt hnonneg hlt, hscan, hrest, hrange⟩
  rw [Environment.convert, if_pos (by omega)]

/-! ## The list that is built -/

/-- The list built so far, with `current` at its end. -/
structure Linked (env : Environment) (head : ℕ) (r : Reading) (values : List ℤ) : Prop where
  list : ∃ front, Visits 0 (nextOf r.heap) head (front ++ [r.current]) ∧
    (front ++ [r.current]).map (winsOf r.heap) = values.map some
  fresh : ∀ i, r.mallocs ≤ i → r.heap (env.malloc i) = none

theorem Linked.isListOf (l : Linked env head r values) : IsListOf r.heap head values := by
  obtain ⟨front, hvisits, hwins⟩ := l.list
  exact ⟨_, hvisits, hwins⟩

/-- The list of the first node. -/
theorem linked_firstNode (env : Environment) (file : List Char) :
    Linked env (firstNode env file).current (firstNode env file)
      [toUChar (firstNode env file).buffer] where
  list := by
    refine ⟨[], ⟨rfl, env.malloc_ne_null 0, ?_⟩, ?_⟩
    · show nextOf (Function.update (fun _ => none) (env.malloc 0) _) (env.malloc 0) = 0
      rw [nextOf, Function.update_self]
      rfl
    · show [winsOf (Function.update (fun _ => none) (env.malloc 0) _) (env.malloc 0)] = _
      rw [winsOf, Function.update_self]
      rfl
  fresh i hi := by
    have hpos : 1 ≤ i := hi
    have hne : env.malloc i ≠ env.malloc 0 := fun h => by
      have h0 := env.malloc_injective h
      omega
    show Function.update (fun _ => none) (env.malloc 0) _ (env.malloc i) = none
    rw [Function.update_of_ne hne]

/-- A new node behind the last one. -/
theorem Linked.snoc (l : Linked env head r values) (f : List Char) (buffer : ℤ) :
    ∃ heap, setNext (Function.update r.heap (env.malloc r.mallocs) (some ⟨toUChar buffer, 0⟩))
        r.current (env.malloc r.mallocs) = .ok heap ∧
      Linked env head ⟨f, buffer, heap, env.malloc r.mallocs, r.mallocs + 1⟩
        (values ++ [toUChar buffer]) := by
  obtain ⟨front, hvisits, hwins⟩ := l.list
  set tail := env.malloc r.mallocs with htail
  have hlive : ∀ a ∈ front ++ [r.current], r.heap a ≠ none := by
    intro a ha hnone
    have hmem : winsOf r.heap a ∈ values.map some := by
      rw [← hwins]
      exact List.mem_map_of_mem ha
    rw [winsOf, hnone] at hmem
    simp at hmem
  have hnew : ∀ a ∈ front ++ [r.current], a ≠ tail := fun a ha h =>
    hlive a ha (h ▸ l.fresh r.mallocs le_rfl)
  obtain ⟨node, hnode⟩ := Option.ne_none_iff_exists'.mp
    (hlive r.current (List.mem_append_right _ List.mem_cons_self))
  have hcurrent : r.current ≠ tail := hnew _ (List.mem_append_right _ List.mem_cons_self)
  set heap := Function.update (Function.update r.heap tail (some ⟨toUChar buffer, 0⟩)) r.current
    (some { node with next := tail }) with hheap
  have hat_current : heap r.current = some { node with next := tail } := Function.update_self _ _ _
  have hat_tail : heap tail = some ⟨toUChar buffer, 0⟩ := by
    rw [hheap, Function.update_of_ne hcurrent.symm, Function.update_self]
  have hother : ∀ a, a ≠ tail → a ≠ r.current → heap a = r.heap a := by
    intro a ha hac
    rw [hheap, Function.update_of_ne hac, Function.update_of_ne ha]
  have hfront : ∀ a ∈ front, heap a = r.heap a := by
    intro a ha
    refine hother a (hnew a (List.mem_append_left _ ha)) fun h => ?_
    exact (List.nodup_append.mp hvisits.nodup).2.2 a ha r.current List.mem_cons_self h
  refine ⟨heap, ?_, ⟨front ++ [r.current], ?_, ?_⟩, fun i hi => ?_⟩
  · rw [setNext, Function.update_of_ne hcurrent, hnode]
    rfl
  · refine hvisits.snoc (env.malloc_ne_null _) ?_ ?_ fun a ha => ?_
    · show nextOf heap r.current = tail
      rw [nextOf, hat_current]
      rfl
    · show nextOf heap tail = 0
      rw [nextOf, hat_tail]
      rfl
    · show nextOf heap a = nextOf r.heap a
      rw [nextOf, hfront a ha, nextOf]
  · have hkeep : (front ++ [r.current]).map (winsOf heap) =
        (front ++ [r.current]).map (winsOf r.heap) := by
      refine List.map_congr_left fun a ha => ?_
      rcases List.mem_append.mp ha with ha | ha
      · rw [winsOf, hfront a ha, winsOf]
      · rw [List.mem_singleton.mp ha, winsOf, hat_current, winsOf, hnode]
        rfl
    show (front ++ [r.current] ++ [tail]).map (winsOf heap) = _
    rw [List.map_append, hkeep, hwins, List.map_append, List.map_singleton, List.map_singleton,
      winsOf, hat_tail]
    rfl
  · show heap (env.malloc i) = none
    have hi : r.mallocs + 1 ≤ i := hi
    have hne : env.malloc i ≠ tail := fun h => by
      have heq := env.malloc_injective (h.trans htail)
      omega
    have hfresh := l.fresh i (by omega)
    rw [hother _ hne fun h => ?_, hfresh]
    rw [h] at hfresh
    exact hlive _ (List.mem_append_right _ List.mem_cons_self) hfresh

/-- **One round** links a node in, if `fscanf` does not answer EOF. -/
theorem Linked.round (l : Linked env head r values) (hne : scanInt r.f ≠ .eof) :
    ∃ r', createListBody env r = .ok (.inl r') ∧ r'.f = (scanInt r.f).rest ∧
      Linked env head r' (values ++ [toUChar r'.buffer]) ∧
      ∀ v rest, scanInt r.f = .number v rest → r'.buffer = env.convert v := by
  obtain ⟨answer, buffer, hscan, hanswer, hnumber⟩ := fscanf_of_ne env hne r.buffer
  obtain ⟨heap, hset, hlinked⟩ := l.snoc (scanInt r.f).rest buffer
  refine ⟨_, ?_, rfl, hlinked, hnumber⟩
  rw [createListBody, hscan]
  dsimp only
  rw [if_pos hanswer, hset]
  rfl

theorem createListBody_eof (heof : scanInt r.f = .eof) :
    createListBody env r = .ok (.inr { r with f := [], buffer := r.buffer }) := by
  rw [createListBody, fscanf_eof heof]
  rfl

/-- A round that is not the last one goes on with the rest of the file. -/
theorem of_createListBody (hne : scanInt r.f ≠ .eof) {x : Reading ⊕ Reading}
    (hbody : createListBody env r = .ok x) : ∃ r', x = .inl r' ∧ r'.f = (scanInt r.f).rest := by
  obtain ⟨answer, buffer, hscan, hanswer, -⟩ := fscanf_of_ne env hne r.buffer
  rw [createListBody, hscan] at hbody
  dsimp only at hbody
  rw [if_pos hanswer, bind_eq_ok] at hbody
  obtain ⟨heap, -, hbody⟩ := hbody
  exact ⟨_, (Except.ok.inj hbody).symm, rfl⟩

/-! ## The loop -/

/-- **The loop ends on a readable file**, and appends its integers to the list. -/
theorem Linked.loop : ∀ {fuel : ℕ} {r : Reading} {values : List ℤ}, r.f.length < fuel →
    (∀ c ∈ r.f, Readable c) → Linked env head r values →
      ∃ r', Lib.loop .diverges (createListBody env) fuel r = .ok r' ∧
        ∀ vs, HoldsIntegers r.f vs → IsListOf r'.heap head (values ++ vs) := by
  intro fuel
  induction fuel with
  | zero => exact fun h => absurd h (Nat.not_lt_zero _)
  | succ fuel ih =>
    intro r values hfuel hgood l
    by_cases heof : scanInt r.f = .eof
    · refine ⟨_, loop_of_leave (createListBody_eof heof), fun vs hvs => ?_⟩
      rw [hvs.1.nil heof, List.append_nil]
      exact l.isListOf
    · obtain ⟨r₁, hbody, hf, hlinked, hnumber⟩ := l.round heof
      have hshort : r₁.f.length < fuel := by
        have hprogress := scanInt_progress hgood heof
        rw [hf]
        omega
      have hgood₁ : ∀ c ∈ r₁.f, Readable c := by
        rw [hf]
        exact fun c hc => hgood c ((rest_scanInt_suffix r.f).subset hc)
      obtain ⟨r', hloop, hlist⟩ := ih hshort hgood₁ hlinked
      refine ⟨r', (loop_of_continue hbody).trans hloop, fun vs hvs => ?_⟩
      obtain ⟨v, rest, rfl, hconvert, huchar, hscan, hrest⟩ := hvs.cons env heof
      have hrest' := hlist rest (by rw [hf]; exact hrest)
      rwa [hnumber v _ hscan, hconvert, huchar, List.append_assoc, List.singleton_append] at hrest'

/-- **The loop never ends** in front of another character. -/
theorem loop_stuck {c : Char} (hc : ¬ Readable c) {fuel : ℕ} (hmem : c ∈ r.f) {r' : Reading}
    (hloop : loop .diverges (createListBody env) fuel r = .ok r') : False := by
  have hkind : isSpace c = false ∧ isSign c = false ∧ c.isDigit = false := by
    simpa [Readable, not_or] using hc
  obtain ⟨hspace, hsign, hdigit⟩ := hkind
  refine loop_preserves (I := fun r : Reading => c ∈ r.f) (Q := fun _ => False)
    (fun r r₁ hr hbody => ?_) (fun r r₁ hr hbody => ?_) hmem hloop
  · obtain ⟨hne, hrest⟩ := scanInt_stuck hr hspace hsign hdigit
    obtain ⟨r₂, h₂, hf⟩ := of_createListBody hne hbody
    rw [Sum.inl.inj h₂, hf]
    exact hrest
  · obtain ⟨hne, -⟩ := scanInt_stuck hr hspace hsign hdigit
    obtain ⟨r₂, h₂, -⟩ := of_createListBody hne hbody
    cases h₂

/-! ## The claim -/

/-- What is left for the loop. -/
theorem firstNode_f (env : Environment) (file : List Char) :
    (firstNode env file).f = (scanInt file).rest := by
  by_cases heof : scanInt file = .eof
  · rw [firstNode, fscanf_eof heof, heof]
    rfl
  · obtain ⟨answer, buffer, hscan, -⟩ := fscanf_of_ne env heof env.garbage
    rw [firstNode, hscan]

theorem firstNode_buffer {v : ℤ} {rest : List Char} (h : scanInt file = .number v rest) :
    (firstNode env file).buffer = env.convert v := by
  rw [firstNode, fscanf, h]

theorem readsFile_of_readable (hgood : ∀ c ∈ file, Readable c) (hne : ∃ c ∈ file, ¬ isSpace c) :
    ReadsFile env file := by
  have heof : scanInt file ≠ .eof := by
    intro h
    obtain ⟨c, hc, hspace⟩ := hne
    exact hspace (scanInt_eq_eof_iff.mp h c hc)
  have hgood₁ : ∀ c ∈ (firstNode env file).f, Readable c := by
    rw [firstNode_f]
    exact fun c hc => hgood c ((rest_scanInt_suffix file).subset hc)
  obtain ⟨r', hloop, hlist⟩ := (linked_firstNode env file).loop (Nat.lt_succ_self _) hgood₁
  refine ⟨(firstNode env file).f.length + 1, (firstNode env file).current, r'.heap, ?_,
    fun values hvalues => ?_⟩
  · rw [createList, hloop]
    rfl
  · obtain ⟨v, rest, rfl, hconvert, huchar, hscan, hrest⟩ := hvalues.cons env heof
    have hall := hlist rest (by rw [firstNode_f]; exact hrest)
    rwa [firstNode_buffer hscan, hconvert, huchar] at hall

theorem readable_of_readsFile (h : ReadsFile env file) : ∀ c ∈ file, Readable c := by
  intro c hc
  by_contra hbad
  obtain ⟨fuel, head, heap, hrun, -⟩ := h
  rw [createList, bind_eq_ok] at hrun
  obtain ⟨r, hloop, -⟩ := hrun
  have hkind : isSpace c = false ∧ isSign c = false ∧ c.isDigit = false := by
    simpa [Readable, not_or] using hbad
  refine loop_stuck hbad ?_ hloop
  rw [firstNode_f]
  exact (scanInt_stuck hc hkind.1 hkind.2.1 hkind.2.2).2

/-- The list of an empty file is not empty. -/
theorem not_all_space_of_readsFile (h : ReadsFile env file) : ∃ c ∈ file, ¬ isSpace c := by
  by_contra hnone
  have hblank : ∀ c ∈ file, isSpace c := fun c hc => by
    by_contra hspace
    exact hnone ⟨c, hc, hspace⟩
  obtain ⟨fuel, head, heap, hrun, hlist⟩ := h
  have hnil : HoldsIntegers file [] :=
    ⟨numerals_nil_of_blank hblank, fun v hv => absurd hv List.not_mem_nil⟩
  obtain ⟨nodes, hvisits, hwins⟩ := hlist [] hnil
  rw [List.map_nil, List.map_eq_nil_iff] at hwins
  rw [hwins, visits_nil] at hvisits
  rw [createList, bind_eq_ok] at hrun
  obtain ⟨r, -, hrun⟩ := hrun
  have hhead : env.malloc 0 = head := (Prod.mk.inj (Except.ok.inj hrun)).1
  exact env.malloc_ne_null 0 (hhead.trans hvisits)

/-- **`create_list` reads a file** exactly if it has no characters but digits, signs and white
space, and is not blank. -/
theorem reads_file_iff (env : Environment) (file : List Char) :
    ReadsFile env file ↔ (∀ c ∈ file, Readable c) ∧ ∃ c ∈ file, ¬ isSpace c :=
  ⟨fun h => ⟨readable_of_readsFile h, not_all_space_of_readsFile h⟩,
    fun h => readsFile_of_readable h.1 h.2⟩

/-- Addresses one behind the other, and zeros. -/
def plain : Environment where
  malloc i := 16 * (i + 1)
  malloc_ne_null i := by omega
  malloc_injective i j h := by
    have h : 16 * (i + 1) = 16 * (j + 1) := h
    omega
  garbage := 0
  outOfRange _ := 0

/-- An empty file gives a list of one node. -/
theorem not_reads_file : ¬ ∀ (env : Environment) (file : List Char), ReadsFile env file := by
  intro hall
  obtain ⟨c, hc, -⟩ := not_all_space_of_readsFile (hall plain [])
  exact List.not_mem_nil hc

end LinkedList
end SystemsProjects
