import Mathlib.Data.Nat.Notation
import Mathlib.Tactic.Common
import Mathlib.Tactic.Ring

/-! # Flat memories and their intervals

A memory is a total function on addresses; code that works on a buffer only ever looks at the
interval it owns. Bulk writes (`blit`, `store`, `writeList`, `fill`) replace one interval, and
`slice` and `readList` observe one. Each write has one lemma for an address inside the interval
and one for an address outside it; everything about disjoint or equal intervals follows.
-/

namespace Memory

variable {α : Type*} {n : ℕ}

/-- Replace the `len` cells from `off` by the first `len` cells of `src`. -/
def blit (m : ℕ → α) (off len : ℕ) (src : ℕ → α) : ℕ → α :=
  fun i => if off ≤ i ∧ i < off + len then src (i - off) else m i

/-- Replace `len` cells from `off` by one value. -/
def fill (m : ℕ → α) (off len : ℕ) (value : α) : ℕ → α := blit m off len fun _ => value

/-- Replace the cells from `off` by a block of fixed size. -/
def store (m : ℕ → α) (off : ℕ) (block : Fin n → α) : ℕ → α :=
  fun i => if h : off ≤ i ∧ i < off + n then block ⟨i - off, by omega⟩ else m i

/-- Replace the cells from `off` by the entries of a list. -/
def writeList (m : ℕ → α) (off : ℕ) (entries : List α) : ℕ → α :=
  fun i => if h : off ≤ i ∧ i < off + entries.length then entries[i - off] else m i

/-- The `n` cells from `off`. -/
def slice (m : ℕ → α) (off n : ℕ) : Fin n → α := fun i => m (off + i)

def readList (m : ℕ → α) (off len : ℕ) : List α := (List.range len).map fun i => m (off + i)

/-- Rewrite `count` consecutive blocks of `n` cells, the first one being block number `first`. -/
def mapBlocks (m : ℕ → α) (n first : ℕ) : (count : ℕ) → (f : ℕ → (Fin n → α) → Fin n → α) → ℕ → α
  | 0, _ => m
  | count + 1, f =>
    let before := mapBlocks m n first count f
    store before ((first + count) * n) (f (first + count) (slice before ((first + count) * n) n))

theorem blit_inside (m : ℕ → α) {off len i : ℕ} (src : ℕ → α) (inside : i < len) :
    blit m off len src (off + i) = src i := by
  simp [blit, inside]

theorem blit_outside (m : ℕ → α) {off len i : ℕ} (src : ℕ → α) (outside : i < off ∨ off + len ≤ i) :
    blit m off len src i = m i := if_neg (by omega)

@[simp] theorem blit_zero (m : ℕ → α) (off : ℕ) (src : ℕ → α) : blit m off 0 src = m := by
  funext i
  exact blit_outside m src (by omega)

/-- Two bulk writes side by side. -/
theorem blit_blit_next (m : ℕ → α) (off a b : ℕ) (src : ℕ → α) :
    blit (blit m off a src) (off + a) b (fun i => src (a + i)) = blit m off (a + b) src := by
  funext i
  by_cases first : off ≤ i ∧ i < off + a
  · rw [blit_outside _ _ (by omega)]
    simp [blit, first, show i < off + (a + b) by omega]
  · by_cases second : off + a ≤ i ∧ i < off + a + b
    · simp [blit, second, show off ≤ i by omega, show i < off + (a + b) by omega,
        show a + (i - (off + a)) = i - off by omega]
    · rw [blit_outside _ _ (by omega), blit_outside _ _ (by omega), blit_outside _ _ (by omega)]

theorem fill_inside (m : ℕ → α) {off len i : ℕ} (value : α) (lower : off ≤ i) (upper : i < off + len) :
    fill m off len value i = value := if_pos ⟨lower, upper⟩

theorem fill_outside (m : ℕ → α) {off len i : ℕ} (value : α) (outside : i < off ∨ off + len ≤ i) :
    fill m off len value i = m i := blit_outside m _ outside

theorem store_inside (m : ℕ → α) (off : ℕ) (block : Fin n → α) (i : Fin n) :
    store m off block (off + i) = block i := by
  simp [store]

theorem store_outside (m : ℕ → α) {off i : ℕ} (block : Fin n → α) (outside : i < off ∨ off + n ≤ i) :
    store m off block i = m i := dif_neg (by omega)

theorem writeList_inside (m : ℕ → α) {off i : ℕ} (entries : List α) (inside : i < entries.length) :
    writeList m off entries (off + i) = entries[i] := by
  simp [writeList, inside]

theorem writeList_outside (m : ℕ → α) {off i : ℕ} (entries : List α)
    (outside : i < off ∨ off + entries.length ≤ i) : writeList m off entries i = m i :=
  dif_neg (by omega)

@[simp] theorem slice_apply (m : ℕ → α) (off : ℕ) (i : Fin n) : slice m off n i = m (off + i) := rfl

@[simp] theorem readList_length (m : ℕ → α) (off len : ℕ) : (readList m off len).length = len := by
  simp [readList]

theorem readList_succ (m : ℕ → α) (off len : ℕ) :
    readList m off (len + 1) = m off :: readList m (off + 1) len := by
  simp only [readList, List.range_succ_eq_map, List.map_cons, List.map_map, Nat.add_zero]
  congr 1
  apply List.map_congr_left
  intro i _
  simp only [Function.comp_apply]
  congr 1
  omega

theorem readList_add (m : ℕ → α) (off a b : ℕ) :
    readList m off (a + b) = readList m off a ++ readList m (off + a) b := by
  simp [readList, List.range_add, Nat.add_assoc]

/-- An interval around one of its cells. -/
theorem readList_around (m : ℕ → α) {off i : ℕ} (len : ℕ) (lower : off ≤ i) :
    readList m off (i + (len + 1) - off) = readList m off (i - off) ++ m i :: readList m (i + 1) len := by
  rw [show i + (len + 1) - off = (i - off) + (len + 1) by omega, readList_add,
    show off + (i - off) = i by omega, readList_succ]

theorem readList_eq_ofFn (m : ℕ → α) (off len : ℕ) : readList m off len = List.ofFn (slice m off len) := by
  apply List.ext_getElem
  · simp
  · intro i _ _
    simp [readList]

@[simp] theorem slice_store_same (m : ℕ → α) (off : ℕ) (block : Fin n → α) :
    slice (store m off block) off n = block := by
  funext i
  exact store_inside m off block i

/-- A slice only depends on its own interval. -/
theorem slice_congr {m m' : ℕ → α} {off : ℕ} (same : ∀ i, off ≤ i → i < off + n → m i = m' i) :
    slice m off n = slice m' off n := by
  funext i
  exact same _ (by omega) (by omega)

/-- A slice within a slice. -/
theorem slice_within {m m' : ℕ → α} {off inner k : ℕ} (same : slice m off n = slice m' off n) (inside : inner + k ≤ n) :
    slice m (off + inner) k = slice m' (off + inner) k := by
  funext i
  have cell := congrFun same ⟨inner + i, by omega⟩
  rwa [slice_apply, slice_apply, ← Nat.add_assoc] at cell

theorem readList_congr {m m' : ℕ → α} {off len : ℕ}
    (same : ∀ i, off ≤ i → i < off + len → m i = m' i) : readList m off len = readList m' off len := by
  apply List.map_congr_left
  intro i member
  have bound := List.mem_range.mp member
  exact same _ (by omega) (by omega)

theorem readList_writeList (m : ℕ → α) (off : ℕ) (entries : List α) :
    readList (writeList m off entries) off entries.length = entries := by
  apply List.ext_getElem
  · simp
  · intro i _ bound
    simp [readList, writeList_inside m entries bound]

theorem readList_fill_disjoint (m : ℕ → α) {off off' len n : ℕ} (value : α)
    (disjoint : off + n ≤ off' ∨ off' + len ≤ off) : readList (fill m off' len value) off n = readList m off n :=
  readList_congr fun _ _ _ => fill_outside m value (by omega)

/-- A move to another place. -/
theorem readList_blit (m : ℕ → α) (off len base : ℕ) :
    readList (blit m off len fun k => m (base + k)) off len = readList m base len := by
  apply List.map_congr_left
  intro i member
  exact blit_inside m _ (List.mem_range.mp member)

theorem slice_store_disjoint (m : ℕ → α) {off off' k : ℕ} (block : Fin k → α)
    (disjoint : off + n ≤ off' ∨ off' + k ≤ off) : slice (store m off' block) off n = slice m off n :=
  slice_congr fun _ _ _ => store_outside m block (by omega)

theorem slice_blit_disjoint (m : ℕ → α) {off off' len : ℕ} (src : ℕ → α)
    (disjoint : off + n ≤ off' ∨ off' + len ≤ off) : slice (blit m off' len src) off n = slice m off n :=
  slice_congr fun _ _ _ => blit_outside m src (by omega)

theorem slice_fill_disjoint (m : ℕ → α) {off off' len : ℕ} (value : α)
    (disjoint : off + n ≤ off' ∨ off' + len ≤ off) : slice (fill m off' len value) off n = slice m off n :=
  slice_blit_disjoint m _ disjoint

/-- The slice of a slice's own memory image. -/
theorem slice_add (m : ℕ → α) (base off : ℕ) :
    slice (fun i => m (base + i)) off n = slice m (base + off) n := by
  funext i
  simp [Nat.add_assoc]

theorem mapBlocks_outside (m : ℕ → α) {first count i : ℕ} (f : ℕ → (Fin n → α) → Fin n → α)
    (outside : i < first * n ∨ (first + count) * n ≤ i) : mapBlocks m n first count f i = m i := by
  induction count with
  | zero => rfl
  | succ count ih =>
    have next : (first + count + 1) * n = (first + count) * n + n := by ring
    have low : first * n ≤ (first + count) * n := Nat.mul_le_mul_right n (Nat.le_add_right _ _)
    rw [← Nat.add_assoc, next] at outside
    rw [mapBlocks, store_outside _ _ (by omega), ih (by omega)]

/-- Each block is rewritten on its own. -/
theorem slice_mapBlocks (m : ℕ → α) {first count i : ℕ} (f : ℕ → (Fin n → α) → Fin n → α)
    (lower : first ≤ i) (upper : i < first + count) :
    slice (mapBlocks m n first count f) (i * n) n = f i (slice m (i * n) n) := by
  induction count with
  | zero => omega
  | succ count ih =>
    rw [mapBlocks]
    by_cases last : i = first + count
    · subst last
      rw [slice_store_same]
      congr 1
      exact slice_congr fun k _ _ => mapBlocks_outside m f (by omega)
    · have apart : i * n + n ≤ (first + count) * n := by
        calc i * n + n = (i + 1) * n := by ring
          _ ≤ (first + count) * n := Nat.mul_le_mul_right n (by omega)
      rw [slice_store_disjoint _ _ (.inl apart), ih (by omega)]

/-- Rewriting blocks of an interval only looks at that interval. -/
theorem mapBlocks_congr {m m' : ℕ → α} {first count lower upper : ℕ} (f : ℕ → (Fin n → α) → Fin n → α)
    (same : ∀ i, lower ≤ i → i < upper → m i = m' i) (below : lower ≤ first * n)
    (above : (first + count) * n ≤ upper) {i : ℕ} (inLower : lower ≤ i) (inUpper : i < upper) :
    mapBlocks m n first count f i = mapBlocks m' n first count f i := by
  induction count generalizing i with
  | zero => exact same i inLower inUpper
  | succ count ih =>
    have last : (first + count) * n + n ≤ upper := by
      calc (first + count) * n + n = (first + (count + 1)) * n := by ring
        _ ≤ upper := above
    have low : first * n ≤ (first + count) * n := Nat.mul_le_mul_right n (Nat.le_add_right _ _)
    have before (i : ℕ) (h : lower ≤ i) (h' : i < upper) :
        mapBlocks m n first count f i = mapBlocks m' n first count f i := ih (by omega) h h'
    have blocks : slice (mapBlocks m n first count f) ((first + count) * n) n =
        slice (mapBlocks m' n first count f) ((first + count) * n) n :=
      slice_congr fun i h h' => before i (by omega) (by omega)
    rw [mapBlocks, mapBlocks, blocks, store, store, before i inLower inUpper]

/-- `count` consecutive blocks of `n` cells. -/
def blocksAt (m : ℕ → α) (n : ℕ) : (count off : ℕ) → List (Fin n → α)
  | 0, _ => []
  | count + 1, off => slice m off n :: blocksAt m n count (off + n)

@[simp] theorem length_blocksAt (m : ℕ → α) (count off : ℕ) : (blocksAt m n count off).length = count := by
  induction count generalizing off with
  | zero => rfl
  | succ count ih => rw [blocksAt, List.length_cons, ih]

theorem blocksAt_congr {m m' : ℕ → α} {count off : ℕ}
    (same : ∀ i, off ≤ i → i < off + n * count → m i = m' i) : blocksAt m n count off = blocksAt m' n count off := by
  induction count generalizing off with
  | zero => rfl
  | succ count ih =>
    rw [Nat.mul_succ] at same
    rw [blocksAt, blocksAt, slice_congr fun i _ _ => same i (by omega) (by omega),
      ih fun i _ _ => same i (by omega) (by omega)]

/-- A block as a memory. -/
def ofBlock [Inhabited α] (block : Fin n → α) : ℕ → α :=
  fun i => if h : i < n then block ⟨i, h⟩ else default

theorem ofBlock_apply [Inhabited α] (block : Fin n → α) {i : ℕ} (bound : i < n) :
    ofBlock block i = block ⟨i, bound⟩ := dif_pos bound

end Memory
