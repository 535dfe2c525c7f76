import Scubed3.ToMathlib.Memory

/-! # Records laid out in a memory

A record is a list of fields, each with its offset and its contents. Fields that do not overlap can be
read back in any order; fields that tile an interval determine every cell of it.
-/

namespace Memory

variable {α : Type*}

/-- Store the fields one after the other. -/
def writeFields (m : ℕ → α) (fields : List (ℕ × List α)) : ℕ → α :=
  fields.foldl (fun m field => writeList m field.1 field.2) m

/-- The fields do not share a cell. -/
def Apart (f g : ℕ × List α) : Prop := f.1 + f.2.length ≤ g.1 ∨ g.1 + g.2.length ≤ f.1

/-- The fields follow each other without a gap from `start` to `stop`. -/
def Tiles (start : ℕ) : (fields : List (ℕ × List α)) → (stop : ℕ) → Prop
  | [], stop => start = stop
  | f :: rest, stop => f.1 = start ∧ Tiles (start + f.2.length) rest stop

theorem Apart.symm {f g : ℕ × List α} (apart : Apart f g) : Apart g f := Or.symm apart

theorem writeFields_outside {m : ℕ → α} {fields : List (ℕ × List α)} {i : ℕ}
    (outside : ∀ f ∈ fields, i < f.1 ∨ f.1 + f.2.length ≤ i) : writeFields m fields i = m i := by
  induction fields generalizing m with
  | nil => rfl
  | cons f rest ih =>
    exact (ih fun g member => outside g (List.mem_cons_of_mem _ member)).trans
      (writeList_outside m _ (outside f List.mem_cons_self))

/-- A cell of a field holds what the field says, whatever the memory held. -/
theorem writeFields_inside {m : ℕ → α} {fields : List (ℕ × List α)} (apart : fields.Pairwise Apart)
    {f : ℕ × List α} (member : f ∈ fields) {i : ℕ} (bound : i < f.2.length) :
    writeFields m fields (f.1 + i) = f.2[i] := by
  induction fields generalizing m with
  | nil => simp at member
  | cons g rest ih =>
    obtain ⟨first, others⟩ := List.pairwise_cons.mp apart
    rcases List.mem_cons.mp member with rfl | member
    · change writeFields (writeList m f.1 f.2) rest (f.1 + i) = _
      refine (writeFields_outside fun h inRest => ?_).trans (writeList_inside m _ bound)
      rcases first h inRest with below | above
      · exact .inl (by omega)
      · exact .inr (by omega)
    · exact ih others member

theorem readList_writeFields {m : ℕ → α} {fields : List (ℕ × List α)} (apart : fields.Pairwise Apart)
    {off : ℕ} {entries : List α} (member : (off, entries) ∈ fields) :
    readList (writeFields m fields) off entries.length = entries := by
  apply List.ext_getElem
  · simp
  · intro i _ bound
    simpa [readList] using writeFields_inside apart member bound

namespace Tiles

theorem append {first second : List (ℕ × List α)} {start stop : ℕ} (middle : ℕ) (left : Tiles start first middle)
    (right : Tiles middle second stop) : Tiles start (first ++ second) stop := by
  induction first generalizing start with
  | nil => cases left; exact right
  | cons f rest ih => exact ⟨left.1, ih left.2⟩

/-- Fields of equal size at equal distances. -/
theorem range {start size : ℕ} (count : ℕ) {entries : ℕ → List α} (sizes : ∀ i, (entries i).length = size) :
    Tiles start ((List.range count).map fun i => (start + size * i, entries i)) (start + size * count) := by
  induction count with
  | zero => rfl
  | succ count ih =>
    rw [List.range_succ, List.map_append]
    exact ih.append _ ⟨rfl, by rw [sizes, Nat.mul_succ, Nat.add_assoc]; rfl⟩

theorem bounds {fields : List (ℕ × List α)} {start stop : ℕ} (tiles : Tiles start fields stop) :
    start ≤ stop ∧ ∀ f ∈ fields, start ≤ f.1 ∧ f.1 + f.2.length ≤ stop := by
  induction fields generalizing start with
  | nil => cases tiles; simp
  | cons f rest ih =>
    obtain ⟨same, after⟩ := tiles
    obtain ⟨below, inside⟩ := ih after
    refine ⟨by omega, fun g member => ?_⟩
    rcases List.mem_cons.mp member with rfl | member
    · omega
    · have := inside g member
      omega

theorem apart {fields : List (ℕ × List α)} {start stop : ℕ} (tiles : Tiles start fields stop) :
    fields.Pairwise Apart := by
  induction fields generalizing start with
  | nil => exact .nil
  | cons f rest ih =>
    refine List.pairwise_cons.mpr ⟨fun g member => .inl ?_, ih tiles.2⟩
    have := (tiles.2.bounds.2 g member).1
    rw [tiles.1]
    exact this

theorem cover {fields : List (ℕ × List α)} {start stop i : ℕ} (tiles : Tiles start fields stop)
    (lower : start ≤ i) (upper : i < stop) : ∃ f ∈ fields, f.1 ≤ i ∧ i < f.1 + f.2.length := by
  induction fields generalizing start with
  | nil => cases tiles; omega
  | cons f rest ih =>
    by_cases inside : i < start + f.2.length
    · exact ⟨f, List.mem_cons_self, tiles.1 ▸ lower, by rw [tiles.1]; exact inside⟩
    · obtain ⟨g, member, found⟩ := ih tiles.2 (by omega)
      exact ⟨g, List.mem_cons_of_mem _ member, found⟩

/-- Every cell of the tiled interval is determined by the fields. -/
theorem writeFields_congr {fields sorted : List (ℕ × List α)} {start stop i : ℕ}
    (tiles : Tiles start sorted stop) (perm : fields.Perm sorted) (lower : start ≤ i) (upper : i < stop)
    (m m' : ℕ → α) : writeFields m fields i = writeFields m' fields i := by
  obtain ⟨f, member, below, above⟩ := tiles.cover lower upper
  obtain ⟨k, rfl⟩ := Nat.exists_eq_add_of_le below
  have apart := (perm.pairwise_iff fun apart => apart.symm).mpr tiles.apart
  rw [writeFields_inside apart (perm.mem_iff.mpr member) (by omega),
    writeFields_inside apart (perm.mem_iff.mpr member) (by omega)]

end Tiles

end Memory
